import PhraseStructure.Source.Check

/-!
# Grammars read from text are well formed

Every row that a line yields has a capital on the left and symbols of the kind that their
characters dictate on the right (`Row.Proper`). Reading on keeps this, and the comparison of the
sections then leaves nothing undeclared.

* `wellFormed_of_read`: a grammar that is read from a text keeps all promises of `WellFormed`.
-/

namespace PhraseStructure

namespace Symbol

/-- A symbol has the kind that its character dictates. -/
def Proper (s : Symbol) : Prop := ofChar? s.char = some s

theorem isUpper_of_ofChar? {c d : Char} (h : ofChar? c = some (nonterminal d)) :
    c.isUpper = true := by
  unfold ofChar? at h
  split at h
  · assumption
  · split at h <;> cases h

theorem isLower_or_isDigit_of_ofChar? {c d : Char} (h : ofChar? c = some (terminal d)) :
    (c.isLower || c.isDigit) = true := by
  unfold ofChar? at h
  split at h
  · cases h
  · split at h
    · assumption
    · cases h

end Symbol

namespace Source

theorem bind_eq_ok {ε α β : Type} {x : Except ε α} {f : α → Except ε β} {b : β}
    (h : (x >>= f) = .ok b) : ∃ a, x = .ok a ∧ f a = .ok b := by
  cases x with
  | error e => cases h
  | ok a => exact ⟨a, rfl, h⟩

theorem exists_of_mapM_ok {ε α β : Type} {f : α → Except ε β} {l : List α} {bs : List β}
    (h : l.mapM f = .ok bs) : ∀ b ∈ bs, ∃ a ∈ l, f a = .ok b := by
  induction l generalizing bs with
  | nil =>
    intro b hb
    obtain rfl := Except.ok.inj h
    cases hb
  | cons a rest ih =>
    rw [List.mapM_cons] at h
    obtain ⟨c, hc, h⟩ := bind_eq_ok h
    obtain ⟨cs, hcs, h⟩ := bind_eq_ok h
    obtain rfl := Except.ok.inj h
    intro b hb
    rcases List.mem_cons.1 hb with rfl | hb
    · exact ⟨a, List.mem_cons_self, hc⟩
    · obtain ⟨a', ha', hfa⟩ := ih hcs b hb
      exact ⟨a', List.mem_cons_of_mem a ha', hfa⟩

/-! ## Rows -/

/-- The left-hand side is a capital, and the symbols on the right have their proper kinds. -/
def Row.Proper (row : Row) : Prop :=
  row.lhs.isUpper = true ∧ ∀ form ∈ row.alternatives, ∀ s ∈ form, s.Proper

theorem proper_of_formOfToken {token : Token} {form : Form} (h : formOfToken token = .ok form) :
    ∀ s ∈ form, s.Proper := by
  unfold formOfToken at h
  split at h
  · obtain rfl := Except.ok.inj h
    intro s hs
    cases hs
  · intro s hs
    obtain ⟨c, -, hc⟩ := exists_of_mapM_ok h s hs
    unfold symbolOfChar at hc
    split at hc
    · next t ht =>
      obtain rfl := Except.ok.inj hc
      rw [Symbol.Proper, Symbol.char_of_ofChar? ht]
      exact ht
    · cases hc
  · cases h

theorem proper_of_alternativesOfTokens {tokens : List Token} {forms : List Form}
    (h : alternativesOfTokens tokens = .ok forms) : ∀ form ∈ forms, ∀ s ∈ form, s.Proper := by
  intro form hform s hs
  obtain ⟨part, -, hpart⟩ := exists_of_mapM_ok h form hform
  obtain ⟨pieces, hpieces, hflat⟩ := bind_eq_ok hpart
  obtain rfl := Except.ok.inj hflat
  obtain ⟨piece, hpiece, hs⟩ := List.mem_flatten.1 hs
  obtain ⟨token, -, htoken⟩ := exists_of_mapM_ok hpieces piece hpiece
  exact proper_of_formOfToken htoken s hs

theorem isUpper_of_leftHandSide {token : Option Token} {c : Char}
    (h : leftHandSide token = .ok c) : c.isUpper = true := by
  cases token with
  | none => cases h
  | some t =>
    cases t with
    | word letters =>
      rcases letters with _ | ⟨d, _ | ⟨e, rest⟩⟩
      · cases h
      · change (if d.isUpper then .ok d else .error _) = Except.ok c at h
        split at h
        · next hd =>
          obtain rfl := Except.ok.inj h
          exact hd
        · cases h
      · cases h
    | _ => cases h

theorem proper_of_ofTokens {tokens : List Token} {row : Row} (h : Row.ofTokens tokens = .ok row) :
    row.Proper := by
  obtain ⟨lhs, hlhs, h⟩ := bind_eq_ok h
  split at h
  · obtain ⟨forms, hforms, h⟩ := bind_eq_ok h
    obtain rfl := Except.ok.inj h
    exact ⟨isUpper_of_leftHandSide hlhs, proper_of_alternativesOfTokens hforms⟩
  · cases h

/-- The row that a line carries, if any. -/
def Line.row? : Line → Option Row
  | .openBlock carried _ => carried
  | .row carried _ => some carried
  | _ => none

theorem proper_of_ofBlockHeader {tokens : List Token} {line : Line}
    (h : Line.ofBlockHeader tokens = .ok line) : ∀ row ∈ line.row?, row.Proper := by
  intro row hrow
  unfold Line.ofBlockHeader at h
  split at h
  · simp only at h
    split at h
    · obtain rfl := Except.ok.inj h
      cases hrow
    · obtain ⟨row', hrow', h⟩ := bind_eq_ok h
      obtain rfl := Except.ok.inj h
      obtain rfl := Option.some.inj hrow
      exact proper_of_ofTokens hrow'
  all_goals cases h

theorem proper_of_ofBody {inBlock : Bool} {tokens : List Token} {line : Line}
    (h : Line.ofBody inBlock tokens = .ok line) : ∀ row ∈ line.row?, row.Proper := by
  intro row hrow
  unfold Line.ofBody at h
  split at h
  · split at h
    · obtain rfl := Except.ok.inj h
      cases hrow
    · cases h
  · split at h
    · simp only at h
      obtain ⟨row', hrow', h⟩ := bind_eq_ok h
      obtain rfl := Except.ok.inj h
      obtain rfl := Option.some.inj hrow
      exact proper_of_ofTokens hrow'
    · split at h <;> cases h

theorem proper_of_ofChars {inBlock : Bool} {chars : List Char} {line : Line}
    (h : Line.ofChars inBlock chars = .ok line) : ∀ row ∈ line.row?, row.Proper := by
  obtain ⟨tokens, -, h⟩ := bind_eq_ok h
  have hheader : ∀ (sec : Section) (rest : List Token), Line.ofHeader sec rest = .ok line →
      ∀ row ∈ line.row?, row.Proper := by
    intro sec rest hrest row hrow
    obtain ⟨words, -, hwords⟩ := bind_eq_ok hrest
    obtain rfl := Except.ok.inj hwords
    cases hrow
  unfold Line.ofTokens at h
  split at h
  · obtain rfl := Except.ok.inj h
    intro row hrow
    cases hrow
  · exact hheader _ _ h
  · exact hheader _ _ h
  · exact hheader _ _ h
  · exact proper_of_ofBlockHeader h
  · exact proper_of_ofBody h

/-! ## Outlines -/

namespace Outline

/-- All rows taken up are proper. -/
def Proper (o : Outline) : Prop := ∀ entry ∈ o.rows, entry.1.Proper

theorem rows_leaveBlock (o : Outline) : o.leaveBlock.rows = o.rows := by
  unfold leaveBlock
  split <;> rfl

theorem rows_declare (o : Outline) (sec : Section) (d : Declaration) :
    (o.declare sec d).rows = o.rows := by
  unfold declare
  split
  · rfl
  · cases sec <;> rfl

theorem Proper.add {o : Outline} (h : o.Proper) (number : Nat) {line : Line}
    (hline : ∀ row ∈ line.row?, row.Proper) : (o.add number line).Proper := by
  cases line with
  | blank => exact h
  | header sec words =>
    intro entry hentry
    rw [Outline.add, rows_declare, rows_leaveBlock] at hentry
    exact h entry hentry
  | openBlock row closes =>
    intro entry hentry
    simp only [Outline.add, Outline.openBlock] at hentry
    split at hentry
    · simp only [List.mem_append, List.mem_map, Option.mem_toList] at hentry
      rcases hentry with ⟨r, hr, rfl⟩ | hentry
      · exact hline r hr
      · exact h entry hentry
    all_goals exact h entry hentry
  | row row closes =>
    intro entry hentry
    rcases List.mem_cons.1 hentry with rfl | hentry
    · exact hline row rfl
    · exact h entry hentry
  | closeBlock => exact h

theorem Proper.readLine {o : Outline} (h : o.Proper) (line : List Char × Nat) :
    (o.readLine line).Proper := by
  unfold Outline.readLine
  split
  · next said hsaid => exact h.add line.2 (proper_of_ofChars hsaid)
  · exact h

theorem proper_ofLines (lines : List (List Char)) : (ofLines lines).Proper := by
  have hfold : ∀ (entries : List (List Char × Nat)) (o : Outline), o.Proper →
      (entries.foldl Outline.readLine o).Proper := by
    intro entries
    induction entries with
    | nil => exact fun o h => h
    | cons line rest ih => exact fun o h => ih _ (h.readLine line)
  intro entry hentry
  rw [ofLines, rows_leaveBlock] at hentry
  exact hfold _ {} (fun _ h => by cases h) entry hentry

theorem Proper.production {o : Outline} (h : o.Proper) {p : Production} {line : Nat}
    (hp : (p, line) ∈ o.productions) : p.lhs.isUpper = true ∧ ∀ s ∈ p.rhs, s.Proper := by
  obtain ⟨⟨row, number⟩, hrow, hp⟩ := List.mem_flatMap.1 hp
  obtain ⟨rhs, hrhs, heq⟩ := List.mem_map.1 hp
  obtain ⟨rfl, -⟩ := Prod.mk.inj heq
  obtain ⟨hlhs, hforms⟩ := h _ (List.mem_reverse.1 hrow)
  exact ⟨hlhs, hforms rhs hrhs⟩

end Outline

/-! ## Sections -/

theorem exists_of_mem_alphabet {d : Declaration} {wanted : Symbol → Bool} {c : Char}
    (h : c ∈ d.alphabet wanted) : ∃ s, Symbol.ofChar? c = some s ∧ wanted s = true := by
  rw [Declaration.alphabet, Alphabet.mem_ofList] at h
  obtain ⟨word, -, hword⟩ := List.mem_filterMap.1 h
  unfold declaredChar? at hword
  split at hword
  · split at hword
    · next s hs =>
      split at hword
      · next hwanted =>
        obtain rfl := Option.some.inj hword
        exact ⟨s, hs, hwanted⟩
      · cases hword
    · cases hword
  · cases hword

/-- A symbol that is not lacking is declared, or else collected from its uses. -/
theorem mem_getD_of_lacks {declared : Option Alphabet} {used : Alphabet} {c : Char}
    (h : lacks declared c = false) (hused : c ∈ used) : c ∈ declared.getD used := by
  cases declared with
  | none => exact hused
  | some a => simpa [lacks] using h

theorem mem_usedNonterminals {start c : Char} {productions : List Production} :
    c ∈ usedNonterminals start productions ↔
      c = start ∨ ∃ p ∈ productions, c = p.lhs ∨ Symbol.nonterminal c ∈ p.rhs := by
  have hfilter : ∀ rhs : Form, c ∈ (rhs.filterMap fun s =>
      if s.isNonterminal then some s.char else none) ↔ Symbol.nonterminal c ∈ rhs := by
    intro rhs
    rw [List.mem_filterMap]
    constructor
    · rintro ⟨s, hs, h⟩
      cases s with
      | terminal d => cases h
      | nonterminal d =>
        obtain rfl := Option.some.inj h
        exact hs
    · exact fun h => ⟨_, h, rfl⟩
  simp only [usedNonterminals, Alphabet.mem_ofList, List.mem_cons, List.mem_flatMap, hfilter]

theorem mem_usedTerminals {c : Char} {productions : List Production} :
    c ∈ usedTerminals productions ↔ ∃ p ∈ productions, Symbol.terminal c ∈ p.rhs := by
  have hfilter : ∀ rhs : Form, c ∈ (rhs.filterMap fun s =>
      if s.isTerminal then some s.char else none) ↔ Symbol.terminal c ∈ rhs := by
    intro rhs
    rw [List.mem_filterMap]
    constructor
    · rintro ⟨s, hs, h⟩
      cases s with
      | nonterminal d => cases h
      | terminal d =>
        obtain rfl := Option.some.inj h
        exact hs
    · exact fun h => ⟨_, h, rfl⟩
  simp only [usedTerminals, Alphabet.mem_ofList, List.mem_flatMap, hfilter]

namespace Outline

variable {o : Outline} {maxRules : Nat} {start : Char} {line : Nat}

/-- What the absence of problems says about the symbols that are used. -/
theorem lacks_of_problemsWith (h : o.problemsWith maxRules start line = []) :
    lacks o.declaredNonterminals start = false ∧
      ∀ p ∈ o.productions.map Prod.fst, lacks o.declaredNonterminals p.lhs = false ∧
        ∀ c, (Symbol.nonterminal c ∈ p.rhs → lacks o.declaredNonterminals c = false) ∧
          (Symbol.terminal c ∈ p.rhs → lacks o.declaredTerminals c = false) := by
  simp only [problemsWith, List.append_eq_nil_iff, List.flatMap_eq_nil_iff, ite_eq_right_iff,
    List.cons_ne_nil, imp_false, Bool.not_eq_true] at h
  obtain ⟨⟨⟨-, hstart⟩, hproductions⟩, -⟩ := h
  refine ⟨hstart, ?_⟩
  intro p hp
  obtain ⟨⟨p, number⟩, hentry, rfl⟩ := List.mem_map.1 hp
  have hnone := hproductions _ hentry
  simp only [undeclaredIn, List.append_eq_nil_iff, ite_eq_right_iff, List.cons_ne_nil, imp_false,
    Bool.not_eq_true, List.filterMap_eq_nil_iff, reduceCtorEq] at hnone
  exact ⟨hnone.1, fun c => ⟨fun hc => hnone.2 _ hc, fun hc => hnone.2 _ hc⟩⟩

theorem Proper.wellFormed_assemble (ho : o.Proper) (hstart : start.isUpper = true)
    (h : o.problemsWith maxRules start line = []) : (o.assemble start).WellFormed := by
  obtain ⟨hstartLacks, hlacks⟩ := lacks_of_problemsWith h
  have hproduction : ∀ p ∈ o.productions.map Prod.fst,
      p.lhs.isUpper = true ∧ ∀ s ∈ p.rhs, s.Proper := by
    intro p hp
    obtain ⟨⟨p, number⟩, hentry, rfl⟩ := List.mem_map.1 hp
    exact ho.production hentry
  refine ⟨?_, ?_, ?_, ?_, ?_⟩
  · intro c hc
    simp only [assemble, declaredNonterminals] at hc
    cases hdecl : o.nonterminals with
    | some d =>
      rw [hdecl] at hc
      obtain ⟨s, hs, hkind⟩ := exists_of_mem_alphabet hc
      cases s with
      | terminal d => cases hkind
      | nonterminal d => exact Symbol.isUpper_of_ofChar? hs
    | none =>
      rw [hdecl] at hc
      rcases mem_usedNonterminals.1 hc with rfl | ⟨p, hp, rfl | hc⟩
      · exact hstart
      · exact (hproduction p hp).1
      · exact Symbol.isUpper_of_ofChar? ((hproduction p hp).2 _ hc)
  · intro c hc
    simp only [assemble, declaredTerminals] at hc
    cases hdecl : o.terminals with
    | some d =>
      rw [hdecl] at hc
      obtain ⟨s, hs, hkind⟩ := exists_of_mem_alphabet hc
      cases s with
      | nonterminal d => cases hkind
      | terminal d => exact Symbol.isLower_or_isDigit_of_ofChar? hs
    | none =>
      rw [hdecl] at hc
      obtain ⟨p, hp, hc⟩ := mem_usedTerminals.1 hc
      exact Symbol.isLower_or_isDigit_of_ofChar? ((hproduction p hp).2 _ hc)
  · exact mem_getD_of_lacks hstartLacks (mem_usedNonterminals.2 (.inl rfl))
  · intro p hp
    exact mem_getD_of_lacks (hlacks p hp).1 (mem_usedNonterminals.2 (.inr ⟨p, hp, .inl rfl⟩))
  · intro p hp s hs
    cases s with
    | nonterminal c =>
      exact mem_getD_of_lacks (((hlacks p hp).2 c).1 hs)
        (mem_usedNonterminals.2 (.inr ⟨p, hp, .inr hs⟩))
    | terminal c =>
      exact mem_getD_of_lacks (((hlacks p hp).2 c).2 hs) (mem_usedTerminals.2 ⟨p, hp, hs⟩)

end Outline

theorem isUpper_of_startSymbol {declared : Option Declaration} {c : Char} {line : Nat}
    (h : startSymbol declared = .ok (c, line)) : c.isUpper = true := by
  unfold startSymbol at h
  split at h
  · cases h
  · cases h
  · split at h
    · obtain ⟨rfl, -⟩ := Prod.mk.inj (Except.ok.inj h)
      assumption
    · cases h
  · cases h

/-- **A grammar that is read from a text is well formed.** -/
theorem wellFormed_of_read {maxRules : Nat} {text : String} {g : Grammar}
    (h : read maxRules text = .ok g) : g.WellFormed := by
  unfold read Outline.toGrammar at h
  split at h
  · unfold Outline.check at h
    split at h
    · cases h
    · next start line hstart =>
      split at h
      · next hproblems =>
        obtain rfl := Except.ok.inj h
        exact (Outline.proper_ofLines _).wellFormed_assemble (isUpper_of_startSymbol hstart)
          hproblems
      · cases h
  · cases h

end Source

end PhraseStructure
