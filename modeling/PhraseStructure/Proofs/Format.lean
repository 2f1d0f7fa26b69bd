import Mathlib.Data.Finset.Card
import PhraseStructure.Proofs.Arrangement

/-!
# The format of grammar texts

A text is accepted if its lines are spelled and arranged as they have to be, no section is declared
twice, and the sections agree with each other (`Consistent`). The grammar is then what the lines
describe (`described`): the declared sets, or else the symbols that are used, and the productions of
the rows in order.

* `read_eq_ok_iff`: which texts are read, and as which grammars.
* `read_accepts_iff`, `grammar_of_read`: what this says about texts, and about grammars.
-/

namespace PhraseStructure

namespace Symbol

theorem isUpper_iff {c : Char} : c.isUpper = true ↔ 65 ≤ c.toNat ∧ c.toNat ≤ 90 := by
  have hrange : c.isUpper = decide (65 ≤ c.val ∧ c.val ≤ 90) := rfl
  simp [hrange, UInt32.le_iff_toNat_le, ← Char.toNat_val]

theorem isLower_or_isDigit_iff {c : Char} : (c.isLower || c.isDigit) = true ↔
    (97 ≤ c.toNat ∧ c.toNat ≤ 122) ∨ (48 ≤ c.toNat ∧ c.toNat ≤ 57) := by
  have hlower : c.isLower = (decide (97 ≤ c.val) && decide (c.val ≤ 122)) := rfl
  have hdigit : c.isDigit = (decide (48 ≤ c.val) && decide (c.val ≤ 57)) := rfl
  simp [hlower, hdigit, UInt32.le_iff_toNat_le, ← Char.toNat_val]

theorem ofChar?_of_isUpper {c : Char} (h : c.isUpper = true) :
    ofChar? c = some (nonterminal c) := by
  simp only [ofChar?, h, if_true]

/-- Capitals are neither small letters nor digits, so the order of the tests does not matter. -/
theorem ofChar?_of_isLower_or_isDigit {c : Char} (h : (c.isLower || c.isDigit) = true) :
    ofChar? c = some (terminal c) := by
  have hupper : ¬ c.isUpper = true := by
    rw [isLower_or_isDigit_iff] at h
    rw [isUpper_iff]
    omega
  simp only [ofChar?, hupper, h, if_true, if_false, Bool.false_eq_true]

theorem exists_isNonterminal_iff {c : Char} :
    (∃ s, ofChar? c = some s ∧ s.isNonterminal = true) ↔ c.isUpper = true := by
  constructor
  · rintro ⟨s, hs, hkind⟩
    cases s with
    | terminal d => cases hkind
    | nonterminal d => exact isUpper_of_ofChar? hs
  · intro h
    exact ⟨_, ofChar?_of_isUpper h, rfl⟩

theorem exists_isTerminal_iff {c : Char} :
    (∃ s, ofChar? c = some s ∧ s.isTerminal = true) ↔ (c.isLower || c.isDigit) = true := by
  constructor
  · rintro ⟨s, hs, hkind⟩
    cases s with
    | terminal d => exact isLower_or_isDigit_of_ofChar? hs
    | nonterminal d => cases hkind
  · intro h
    exact ⟨_, ofChar?_of_isLower_or_isDigit h, rfl⟩

end Symbol

namespace Source

/-- The productions of a row, one for each alternative. -/
def Row.productions (row : Row) : List Production :=
  row.alternatives.map fun rhs => ⟨row.lhs, rhs⟩

/-- The sections of a text agree with each other: `words` are the words of the lines that declare a
section, and `rows` the rows of the block. -/
structure Consistent (maxRules : Nat) (words : Section → List (List (List Char)))
    (rows : List Row) (start : Char) : Prop where
  /-- One line declares the start symbol and nothing else. -/
  start_words : words .start = [[[start]]]
  start_isUpper : start.isUpper = true
  nonterminal_words : ∀ ws ∈ words .nonterminals, ∀ w ∈ ws, ∃ c, w = [c] ∧ c.isUpper = true
  terminal_words : ∀ ws ∈ words .terminals, ∀ w ∈ ws,
    ∃ c, w = [c] ∧ (c.isLower || c.isDigit) = true
  start_mem : ∀ ws ∈ words .nonterminals, [start] ∈ ws
  lhs_mem : ∀ ws ∈ words .nonterminals, ∀ row ∈ rows, [row.lhs] ∈ ws
  nonterminal_mem : ∀ ws ∈ words .nonterminals, ∀ row ∈ rows, ∀ form ∈ row.alternatives,
    ∀ c, .nonterminal c ∈ form → [c] ∈ ws
  terminal_mem : ∀ ws ∈ words .terminals, ∀ row ∈ rows, ∀ form ∈ row.alternatives,
    ∀ c, .terminal c ∈ form → [c] ∈ ws
  /-- There are not too many different left-hand sides. -/
  card_le : (rows.map Row.lhs).toFinset.card ≤ maxRules

/-- The set that the words of a section declare, or else the set of the symbols that are used. -/
def declaredOr (used : Alphabet) : List (List (List Char)) → Alphabet
  | [] => used
  | ws :: _ => .ofList ws.flatten

/-- The grammar that sections describe. -/
def described (words : Section → List (List (List Char))) (rows : List Row) (start : Char) :
    Grammar :=
  let productions := rows.flatMap Row.productions
  { nonterminals := declaredOr (usedNonterminals start productions) (words .nonterminals)
    terminals := declaredOr (usedTerminals productions) (words .terminals)
    start
    productions }

/-! ## Counting left-hand sides -/

theorem length_eraseDups (cs : List Char) : cs.eraseDups.length = cs.toFinset.card := by
  -- What is left after the first character is not the tail, so the induction is on the length.
  induction hn : cs.length using Nat.strong_induction_on generalizing cs with
  | _ n ih =>
    cases cs with
    | nil => rfl
    | cons c rest =>
      have hlt : (rest.filter fun d => !d == c).length < n := by
        have hle := List.length_filter_le (fun d => !d == c) rest
        simp only [List.length_cons] at hn
        omega
      have hset : (c :: rest).toFinset = insert c (rest.filter fun d => !d == c).toFinset := by
        ext d
        by_cases hd : d = c <;> simp [hd]
      have hnot : c ∉ (rest.filter fun d => !d == c).toFinset := by simp
      rw [List.eraseDups_cons, List.length_cons, ih _ hlt _ rfl, hset,
        Finset.card_insert_of_notMem hnot]

theorem toFinset_lhs_productions {rows : List Row} (hne : ∀ row ∈ rows, row.alternatives ≠ []) :
    ((rows.flatMap Row.productions).map Production.lhs).toFinset =
      (rows.map Row.lhs).toFinset := by
  ext c
  simp only [List.mem_toFinset, List.mem_map, List.mem_flatMap, Row.productions]
  constructor
  · rintro ⟨p, ⟨row, hrow, form, -, rfl⟩, rfl⟩
    exact ⟨row, hrow, rfl⟩
  · rintro ⟨row, hrow, rfl⟩
    obtain ⟨form, hform⟩ := List.exists_mem_of_ne_nil _ (hne row hrow)
    exact ⟨⟨row.lhs, form⟩, ⟨row, hrow, form, hform, rfl⟩, rfl⟩

theorem rowCount_eq {rows : List Row} (hne : ∀ row ∈ rows, row.alternatives ≠ []) :
    rowCount (rows.flatMap Row.productions) = (rows.map Row.lhs).toFinset.card := by
  rw [rowCount, length_eraseDups, toFinset_lhs_productions hne]

/-! ## Declared words -/

theorem declaredChar?_eq_some_iff {wanted : Symbol → Bool} {word : List Char} {c : Char} :
    declaredChar? wanted word = some c ↔
      word = [c] ∧ ∃ s, Symbol.ofChar? c = some s ∧ wanted s = true := by
  constructor
  · intro h
    unfold declaredChar? at h
    split at h
    · next d =>
      split at h
      · next s hs =>
        split at h
        · next hwanted =>
          obtain rfl := Option.some.inj h
          exact ⟨rfl, s, hs, hwanted⟩
        · cases h
      · cases h
    · cases h
  · rintro ⟨rfl, s, hs, hwanted⟩
    simp only [declaredChar?, hs, hwanted, if_true]

variable {wanted : Symbol → Bool}

theorem Declaration.mem_alphabet_iff {d : Declaration} {c : Char} :
    c ∈ d.alphabet wanted ↔
      [c] ∈ d.words ∧ ∃ s, Symbol.ofChar? c = some s ∧ wanted s = true := by
  rw [alphabet, Alphabet.mem_ofList, List.mem_filterMap]
  simp only [declaredChar?_eq_some_iff]
  constructor
  · rintro ⟨word, hword, rfl, hkind⟩
    exact ⟨hword, hkind⟩
  · rintro ⟨hword, hkind⟩
    exact ⟨[c], hword, rfl, hkind⟩

theorem Declaration.badWords_eq_nil_iff {d : Declaration} :
    d.badWords wanted = [] ↔
      ∀ w ∈ d.words, ∃ c, w = [c] ∧ ∃ s, Symbol.ofChar? c = some s ∧ wanted s = true := by
  simp only [badWords, List.map_eq_nil_iff, List.filter_eq_nil_iff, Bool.not_eq_true,
    Option.isNone_eq_false_iff, Option.isSome_iff_exists, declaredChar?_eq_some_iff]

theorem badWords_getD_eq_nil_iff {d : Option Declaration} :
    (d.map fun d => d.badWords wanted).getD [] = [] ↔
      ∀ ws ∈ (d.map Declaration.words).toList, ∀ w ∈ ws,
        ∃ c, w = [c] ∧ ∃ s, Symbol.ofChar? c = some s ∧ wanted s = true := by
  cases d with
  | none => simp
  | some d => simpa using Declaration.badWords_eq_nil_iff

theorem lacks_eq_false_iff {d : Option Declaration} {c : Char}
    (hc : ∃ s, Symbol.ofChar? c = some s ∧ wanted s = true) :
    lacks (d.map fun d => d.alphabet wanted) c = false ↔
      ∀ ws ∈ (d.map Declaration.words).toList, [c] ∈ ws := by
  cases d with
  | none => simp [lacks]
  | some d => simp [lacks, Declaration.mem_alphabet_iff, hc]

/-- Words of one character each, run together, are the declared symbols. -/
theorem Declaration.alphabet_eq_ofList {d : Declaration}
    (h : ∀ w ∈ d.words, ∃ c, w = [c] ∧ ∃ s, Symbol.ofChar? c = some s ∧ wanted s = true) :
    d.alphabet wanted = .ofList d.words.flatten := by
  have hflatten : ∀ words : List (List Char),
      (∀ w ∈ words, ∃ c, w = [c] ∧ ∃ s, Symbol.ofChar? c = some s ∧ wanted s = true) →
        words.filterMap (declaredChar? wanted) = words.flatten := by
    intro words hwords
    induction words with
    | nil => rfl
    | cons w rest ih =>
      rw [List.forall_mem_cons] at hwords
      obtain ⟨⟨c, rfl, hkind⟩, hrest⟩ := hwords
      rw [List.filterMap_cons_some (declaredChar?_eq_some_iff.2 ⟨rfl, hkind⟩), ih hrest,
        List.flatten_cons, List.singleton_append]
  rw [alphabet, hflatten d.words h]

/-! ## Comparing the sections -/

theorem startSymbol_eq_ok_iff {d : Option Declaration} {c : Char} {line : Nat} :
    startSymbol d = .ok (c, line) ↔ d = some ⟨[[c]], line⟩ ∧ c.isUpper = true := by
  constructor
  · intro h
    refine ⟨?_, isUpper_of_startSymbol h⟩
    unfold startSymbol at h
    split at h
    · cases h
    · cases h
    · split at h
      · obtain ⟨rfl, rfl⟩ := Prod.mk.inj (Except.ok.inj h)
        rfl
      · cases h
    · cases h
  · rintro ⟨rfl, hc⟩
    simp only [startSymbol, hc, if_true]

namespace Outline

variable {o : Outline} {maxRules : Nat} {start : Char} {line : Nat}

theorem map_fst_productions (o : Outline) :
    o.productions.map Prod.fst = o.rowsRead.flatMap Row.productions := by
  simp only [Outline.productions, rowsRead, List.map_flatMap, List.flatMap_map, List.map_map]
  rfl

theorem undeclaredIn_eq_nil_iff {nonterminals terminals : Option Alphabet} {p : Production} :
    undeclaredIn nonterminals terminals (p, line) = [] ↔
      lacks nonterminals p.lhs = false ∧
        (∀ c, .nonterminal c ∈ p.rhs → lacks nonterminals c = false) ∧
        ∀ c, .terminal c ∈ p.rhs → lacks terminals c = false := by
  simp only [undeclaredIn, List.append_eq_nil_iff, ite_eq_right_iff, List.cons_ne_nil, imp_false,
    Bool.not_eq_true, List.filterMap_eq_nil_iff, reduceCtorEq]
  refine and_congr_right fun _ => ⟨?_, ?_⟩
  · intro h
    exact ⟨fun c hc => h _ hc, fun c hc => h _ hc⟩
  · rintro ⟨hnonterminal, hterminal⟩ s hs
    cases s with
    | nonterminal c => exact hnonterminal c hs
    | terminal c => exact hterminal c hs

theorem problemsWith_eq_nil_iff :
    o.problemsWith maxRules start line = [] ↔ o.badWords = [] ∧
      lacks o.declaredNonterminals start = false ∧
      (∀ row ∈ o.rowsRead, ∀ form ∈ row.alternatives,
        lacks o.declaredNonterminals row.lhs = false ∧
          (∀ c, .nonterminal c ∈ form → lacks o.declaredNonterminals c = false) ∧
          ∀ c, .terminal c ∈ form → lacks o.declaredTerminals c = false) ∧
      rowCount (o.rowsRead.flatMap Row.productions) ≤ maxRules := by
  have hentries : (∀ entry ∈ o.productions,
      undeclaredIn o.declaredNonterminals o.declaredTerminals entry = []) ↔
        ∀ row ∈ o.rowsRead, ∀ form ∈ row.alternatives,
          lacks o.declaredNonterminals row.lhs = false ∧
            (∀ c, .nonterminal c ∈ form → lacks o.declaredNonterminals c = false) ∧
            ∀ c, .terminal c ∈ form → lacks o.declaredTerminals c = false := by
    constructor
    · intro h row hrow form hform
      obtain ⟨⟨row, number⟩, hentry, rfl⟩ := List.mem_map.1 hrow
      have hp : ((⟨row.lhs, form⟩ : Production), number) ∈ o.productions :=
        List.mem_flatMap.2 ⟨(row, number), hentry, List.mem_map.2 ⟨form, hform, rfl⟩⟩
      exact undeclaredIn_eq_nil_iff.1 (h _ hp)
    · intro h entry hentry
      obtain ⟨⟨row, number⟩, hrow, hp⟩ := List.mem_flatMap.1 hentry
      obtain ⟨form, hform, rfl⟩ := List.mem_map.1 hp
      exact undeclaredIn_eq_nil_iff.2 (h row (List.mem_map_of_mem hrow) form hform)
  simp only [problemsWith, List.append_eq_nil_iff, List.flatMap_eq_nil_iff, ite_eq_right_iff,
    List.cons_ne_nil, imp_false, Bool.not_eq_true, Nat.not_lt, hentries, map_fst_productions,
    and_assoc]

/-- **The sections are found to agree** exactly if they are consistent. -/
theorem problemsWith_eq_nil_iff_consistent (hproper : ∀ row ∈ o.rowsRead, row.Proper)
    (hne : ∀ row ∈ o.rowsRead, row.alternatives ≠ [])
    (hstart : startSymbol o.start = .ok (start, line)) :
    o.problemsWith maxRules start line = [] ↔
      Consistent maxRules o.declaredWords o.rowsRead start := by
  obtain ⟨hwords, hupper⟩ := startSymbol_eq_ok_iff.1 hstart
  have hstartWords : o.declaredWords .start = [[[start]]] := by
    simp only [Outline.declaredWords, declaration?, hwords, Option.map_some, Option.toList_some]
  -- What is compared are characters of the right kind.
  have hnonterminal : ∀ c : Char, c.isUpper = true → (lacks o.declaredNonterminals c = false ↔
      ∀ ws ∈ o.declaredWords .nonterminals, [c] ∈ ws) := by
    intro c hc
    exact lacks_eq_false_iff (Symbol.exists_isNonterminal_iff.2 hc)
  have hterminal : ∀ c : Char, (c.isLower || c.isDigit) = true →
      (lacks o.declaredTerminals c = false ↔ ∀ ws ∈ o.declaredWords .terminals, [c] ∈ ws) := by
    intro c hc
    exact lacks_eq_false_iff (Symbol.exists_isTerminal_iff.2 hc)
  have hbad : o.badWords = [] ↔
      (∀ ws ∈ o.declaredWords .nonterminals, ∀ w ∈ ws, ∃ c, w = [c] ∧ c.isUpper = true) ∧
        ∀ ws ∈ o.declaredWords .terminals, ∀ w ∈ ws,
          ∃ c, w = [c] ∧ (c.isLower || c.isDigit) = true := by
    simp only [badWords, List.append_eq_nil_iff, badWords_getD_eq_nil_iff,
      Symbol.exists_isNonterminal_iff, Symbol.exists_isTerminal_iff]
    rfl
  rw [problemsWith_eq_nil_iff, hbad, hnonterminal start hupper, rowCount_eq hne]
  constructor
  · rintro ⟨⟨hN, hT⟩, hS, hused, hcard⟩
    refine ⟨hstartWords, hupper, hN, hT, hS, ?_, ?_, ?_, hcard⟩
    · intro ws hws row hrow
      obtain ⟨form, hform⟩ := List.exists_mem_of_ne_nil _ (hne row hrow)
      exact (hnonterminal _ (hproper row hrow).1).1 (hused row hrow form hform).1 ws hws
    · intro ws hws row hrow form hform c hc
      have hkind := Symbol.isUpper_of_ofChar? ((hproper row hrow).2 form hform _ hc)
      exact (hnonterminal c hkind).1 ((hused row hrow form hform).2.1 c hc) ws hws
    · intro ws hws row hrow form hform c hc
      have hkind := Symbol.isLower_or_isDigit_of_ofChar? ((hproper row hrow).2 form hform _ hc)
      exact (hterminal c hkind).1 ((hused row hrow form hform).2.2 c hc) ws hws
  · intro h
    refine ⟨⟨h.nonterminal_words, h.terminal_words⟩, h.start_mem, ?_, h.card_le⟩
    intro row hrow form hform
    refine ⟨?_, ?_, ?_⟩
    · exact (hnonterminal _ (hproper row hrow).1).2 fun ws hws => h.lhs_mem ws hws row hrow
    · intro c hc
      have hkind := Symbol.isUpper_of_ofChar? ((hproper row hrow).2 form hform _ hc)
      exact (hnonterminal c hkind).2 fun ws hws => h.nonterminal_mem ws hws row hrow form hform c hc
    · intro c hc
      have hkind := Symbol.isLower_or_isDigit_of_ofChar? ((hproper row hrow).2 form hform _ hc)
      exact (hterminal c hkind).2 fun ws hws => h.terminal_mem ws hws row hrow form hform c hc

theorem assemble_eq_described (h : Consistent maxRules o.declaredWords o.rowsRead start) :
    o.assemble start = described o.declaredWords o.rowsRead start := by
  have hN := h.nonterminal_words
  have hT := h.terminal_words
  simp only [← Symbol.exists_isNonterminal_iff] at hN
  simp only [← Symbol.exists_isTerminal_iff] at hT
  simp only [assemble, described, map_fst_productions, Grammar.mk.injEq, and_true]
  constructor
  · simp only [Outline.declaredWords, declaration?, declaredNonterminals] at hN ⊢
    cases hd : o.nonterminals with
    | none => rfl
    | some d =>
      rw [hd] at hN
      exact Declaration.alphabet_eq_ofList (hN d.words (List.mem_singleton_self _))
  · simp only [Outline.declaredWords, declaration?, declaredTerminals] at hT ⊢
    cases hd : o.terminals with
    | none => rfl
    | some d =>
      rw [hd] at hT
      exact Declaration.alphabet_eq_ofList (hT d.words (List.mem_singleton_self _))

theorem check_eq_ok_iff (hproper : ∀ row ∈ o.rowsRead, row.Proper)
    (hne : ∀ row ∈ o.rowsRead, row.alternatives ≠ []) {g : Grammar} :
    o.check maxRules = .ok g ↔ ∃ start, Consistent maxRules o.declaredWords o.rowsRead start ∧
      g = described o.declaredWords o.rowsRead start := by
  constructor
  · intro h
    unfold check at h
    split at h
    · cases h
    · next start line hstart =>
      split at h
      · next hproblems =>
        obtain rfl := Except.ok.inj h
        have hcons := (problemsWith_eq_nil_iff_consistent hproper hne hstart).1 hproblems
        exact ⟨start, hcons, assemble_eq_described hcons⟩
      · cases h
  · rintro ⟨start, hcons, rfl⟩
    obtain ⟨line, hstart⟩ : ∃ line, startSymbol o.start = .ok (start, line) := by
      have hwords := hcons.start_words
      simp only [Outline.declaredWords, declaration?] at hwords
      cases hd : o.start with
      | none =>
        rw [hd] at hwords
        cases hwords
      | some d =>
        obtain ⟨words, line⟩ := d
        rw [hd] at hwords
        obtain rfl : words = [[start]] := (List.cons.inj hwords).1
        exact ⟨line, startSymbol_eq_ok_iff.2 ⟨rfl, hcons.start_isUpper⟩⟩
    have hproblems : o.problemsWith maxRules start line = [] :=
      (problemsWith_eq_nil_iff_consistent hproper hne hstart).2 hcons
    unfold check
    simp only [hstart, hproblems, assemble_eq_described hcons]

end Outline

/-! ## Reading a text -/

theorem Line.Spelled.row? {line : Line} {tokens : List Token} (h : line.Spelled tokens) {row : Row}
    (hrow : row ∈ line.row?) : ∃ rowTokens, row.Spelled rowTokens := by
  cases h with
  | openBlockRow closes h =>
    obtain rfl := Option.some.inj hrow
    exact ⟨_, h⟩
  | row closes h =>
    obtain rfl := Option.some.inj hrow
    exact ⟨_, h⟩
  | _ => cases hrow

theorem Says.spelled {lines : List (List Char)} {said : List Line} (h : Says lines said)
    {row : Row} (hrow : row ∈ rowsOf said) : ∃ tokens, row.Spelled tokens := by
  induction h with
  | nil => cases hrow
  | cons hline _ ih =>
    rw [rowsOf_cons, List.mem_append] at hrow
    rcases hrow with hrow | hrow
    · obtain ⟨tokens, -, hspelled⟩ := hline
      obtain ⟨line, hmem, hcarries⟩ := List.mem_filterMap.1 hrow
      rw [List.mem_singleton.1 hmem] at hcarries
      exact hspelled.row? hcarries
    · exact ih hrow

theorem Row.Spelled.proper {row : Row} {tokens : List Token} (h : row.Spelled tokens) :
    row.Proper :=
  proper_of_ofTokens (Row.ofTokens_eq_ok_iff.2 h)

theorem Row.Spelled.alternatives_ne_nil {row : Row} {tokens : List Token}
    (h : row.Spelled tokens) : row.alternatives ≠ [] := by
  obtain ⟨-, parts, hne, -, -, hforms⟩ := h
  rw [hforms]
  simpa using hne

theorem Says.alternatives_ne_nil {lines : List (List Char)} {said : List Line}
    (h : Says lines said) : ∀ row ∈ rowsOf said, row.alternatives ≠ [] := by
  intro row hrow
  obtain ⟨tokens, hspelled⟩ := h.spelled hrow
  exact hspelled.alternatives_ne_nil

theorem Says.proper {lines : List (List Char)} {said : List Line} (h : Says lines said) :
    ∀ row ∈ rowsOf said, row.Proper := by
  intro row hrow
  obtain ⟨tokens, hspelled⟩ := h.spelled hrow
  exact hspelled.proper

/-- What an outline holds that has taken up the lines of a text from the beginning. -/
theorem Outline.Takes.eq_of_empty {o : Outline} {said : List Line}
    (h : ({} : Outline).Takes said o) :
    o.declaredWords = (fun sec => declared sec said) ∧ o.rowsRead = rowsOf said := by
  constructor
  · funext sec
    rw [h.declaredWords, declaredWords_empty, List.nil_append]
  · exact h.rowsRead

theorem Outline.Takes.length_declared_le {o : Outline} {said : List Line}
    (h : ({} : Outline).Takes said o) (sec : Section) : (declared sec said).length ≤ 1 := by
  rw [← congrFun h.eq_of_empty.1 sec]
  exact length_declaredWords_le o sec

/-- **Which texts are read, and as which grammars**: the lines are spelled and arranged as they have
to be, no section is declared twice, and the sections are consistent. -/
theorem read_eq_ok_iff {maxRules : Nat} {text : String} {g : Grammar} :
    read maxRules text = .ok g ↔ ∃ (said : List Line) (start : Char),
      Says (Text.lines text.toList) said ∧ Arranged said ∧
      (∀ sec, (declared sec said).length ≤ 1) ∧
      Consistent maxRules (fun sec => declared sec said) (rowsOf said) start ∧
      g = described (fun sec => declared sec said) (rowsOf said) start := by
  -- The check relies on rows that are proper and have alternatives, which their spelling ensures.
  have hcheck : ∀ {said : List Line}, Says (Text.lines text.toList) said →
      ({} : Outline).Takes said (Outline.ofChars text.toList) →
        ((Outline.ofChars text.toList).check maxRules = .ok g ↔ ∃ start,
          Consistent maxRules (fun sec => declared sec said) (rowsOf said) start ∧
            g = described (fun sec => declared sec said) (rowsOf said) start) := by
    intro said hsays htakes
    obtain ⟨hwords, hrows⟩ := htakes.eq_of_empty
    rw [← hwords, ← hrows]
    refine Outline.check_eq_ok_iff ?_ ?_
    · rw [hrows]
      exact hsays.proper
    · rw [hrows]
      exact hsays.alternatives_ne_nil
  constructor
  · intro h
    unfold read Outline.toGrammar at h
    split at h
    · next hproblems =>
      obtain ⟨said, hsays, harranged, htakes⟩ := Outline.exists_said_of_ofLines hproblems
      obtain ⟨start, hcons, hg⟩ := (hcheck hsays htakes).1 h
      exact ⟨said, start, hsays, harranged, htakes.length_declared_le, hcons, hg⟩
    · cases h
  · rintro ⟨said, start, hsays, harranged, honce, hcons, hg⟩
    have htakes := Outline.takes_ofLines hsays harranged honce
    have hproblems : (Outline.ofChars text.toList).problems = [] := htakes.problems
    unfold read Outline.toGrammar
    simp only [hproblems]
    exact (hcheck hsays htakes).2 ⟨start, hcons, hg⟩

/-- **A text is accepted exactly if it keeps the format.** Each line is spelled as a blank line, a
declaration, a row, or an opening or closing line of the block; there is at most one block, with
rows and blank lines inside, and blank lines and declarations before and after it; no section is
declared twice; and the sections agree with each other. -/
theorem read_accepts_iff (maxRules : Nat) (text : String) :
    (∃ g, read maxRules text = .ok g) ↔ ∃ (said : List Line) (start : Char),
      Says (Text.lines text.toList) said ∧ Arranged said ∧
      (∀ sec, (declared sec said).length ≤ 1) ∧
      Consistent maxRules (fun sec => declared sec said) (rowsOf said) start := by
  constructor
  · rintro ⟨g, hg⟩
    obtain ⟨said, start, hsays, harranged, honce, hcons, -⟩ := read_eq_ok_iff.1 hg
    exact ⟨said, start, hsays, harranged, honce, hcons⟩
  · rintro ⟨said, start, hsays, harranged, honce, hcons⟩
    exact ⟨_, read_eq_ok_iff.2 ⟨said, start, hsays, harranged, honce, hcons, rfl⟩⟩

/-- A row may share its line with both braces, and declarations may follow the block. -/
example : (read 1 "P = \x7b S -> a | \x7d # done\n\nS = S\nT = a, b").isOk = true := by
  decide +kernel

/-- But they may not stand inside it. -/
example : (read 1 "P = \x7b\nS -> a\nS = S\n\x7d").isOk = false := by
  decide +kernel

/-! ## The grammar that is read -/

theorem rowsOf_eq_nil_of_isOuter {lines : List Line} (h : ∀ line ∈ lines, line.IsOuter) :
    rowsOf lines = [] := by
  rw [rowsOf, List.filterMap_eq_nil_iff]
  intro line hline
  have houter := h line hline
  cases line with
  | blank => rfl
  | header sec words => rfl
  | _ => cases houter

theorem mem_declaredOr_iff {used : Alphabet} {words : List (List (List Char))}
    {ws : List (List Char)} (hws : ws ∈ words) (honce : words.length ≤ 1)
    (hsingle : ∀ w ∈ ws, ∃ c, w = [c]) {c : Char} : c ∈ declaredOr used words ↔ [c] ∈ ws := by
  obtain rfl : words = [ws] := by
    cases words with
    | nil => cases hws
    | cons ws' rest =>
      obtain rfl : rest = [] := by simpa using honce
      rw [List.mem_singleton.1 hws]
  rw [declaredOr, Alphabet.mem_ofList, List.mem_flatten]
  constructor
  · rintro ⟨w, hw, hc⟩
    obtain ⟨d, rfl⟩ := hsingle w hw
    rwa [List.mem_singleton.1 hc]
  · intro hw
    exact ⟨[c], hw, List.mem_singleton_self c⟩

theorem card_lhs_le_of_read {maxRules : Nat} {text : String} {g : Grammar}
    (h : read maxRules text = .ok g) :
    (g.productions.map Production.lhs).toFinset.card ≤ maxRules := by
  obtain ⟨said, start, hsays, -, -, hcons, rfl⟩ := read_eq_ok_iff.1 h
  have hlhs := toFinset_lhs_productions hsays.alternatives_ne_nil
  simp only [described, hlhs]
  exact hcons.card_le

/-- **A grammar that is read is well formed**, its symbols have the kinds that their characters
dictate, it has at most as many left-hand sides as allowed, and its productions are the
alternatives of the rows of the block, in order. Each of its two sets is the declared one, or holds
exactly what is used if none is declared. -/
theorem grammar_of_read {maxRules : Nat} {text : String} {g : Grammar}
    (h : read maxRules text = .ok g) :
    g.WellFormed ∧ (∀ p ∈ g.productions, ∀ s ∈ p.rhs, s.Proper) ∧
      (g.productions.map Production.lhs).toFinset.card ≤ maxRules ∧
      ∃ said before block after, Says (Text.lines text.toList) said ∧
        said = before ++ (block ++ after) ∧ (∀ line ∈ before ++ after, line.IsOuter) ∧
        (block = [] ∨ IsBlock block) ∧
        g.productions = (rowsOf block).flatMap Row.productions ∧
        (∀ ws ∈ declared .nonterminals said, ∀ c, c ∈ g.nonterminals ↔ [c] ∈ ws) ∧
        (declared .nonterminals said = [] → ∀ c, c ∈ g.nonterminals ↔
          c = g.start ∨ ∃ p ∈ g.productions, c = p.lhs ∨ .nonterminal c ∈ p.rhs) ∧
        (∀ ws ∈ declared .terminals said, ∀ c, c ∈ g.terminals ↔ [c] ∈ ws) ∧
        (declared .terminals said = [] → ∀ c, c ∈ g.terminals ↔
          ∃ p ∈ g.productions, .terminal c ∈ p.rhs) := by
  have hwell := wellFormed_of_read h
  obtain ⟨said, start, hsays, ⟨before, block, after, hsaid, houter, hblock⟩, honce, hcons, hg⟩ :=
    read_eq_ok_iff.1 h
  have hproductions : g.productions = (rowsOf said).flatMap Row.productions := by rw [hg]; rfl
  have hrows : rowsOf said = rowsOf block := by
    rw [List.forall_mem_append] at houter
    rw [hsaid, rowsOf_append, rowsOf_append, rowsOf_eq_nil_of_isOuter houter.1,
      rowsOf_eq_nil_of_isOuter houter.2, List.nil_append, List.append_nil]
  have hproper : ∀ p ∈ g.productions, ∀ s ∈ p.rhs, s.Proper := by
    intro p hp s hs
    rw [hproductions, List.mem_flatMap] at hp
    obtain ⟨row, hrow, hp⟩ := hp
    obtain ⟨form, hform, rfl⟩ := List.mem_map.1 hp
    obtain ⟨-, hforms⟩ := hsays.proper row hrow
    exact hforms form hform s hs
  refine ⟨hwell, hproper, card_lhs_le_of_read h, said, before, block, after, hsays, hsaid, houter,
    hblock, ?_, ?_, ?_, ?_, ?_⟩
  · rw [hproductions, hrows]
  · intro ws hws c
    rw [hg]
    refine mem_declaredOr_iff hws (honce _) ?_
    intro w hw
    obtain ⟨d, hd, -⟩ := hcons.nonterminal_words ws hws w hw
    exact ⟨d, hd⟩
  · intro hnone c
    simp only [hg, described, hnone, declaredOr, mem_usedNonterminals]
  · intro ws hws c
    rw [hg]
    refine mem_declaredOr_iff hws (honce _) ?_
    intro w hw
    obtain ⟨d, hd, -⟩ := hcons.terminal_words ws hws w hw
    exact ⟨d, hd⟩
  · intro hnone c
    simp only [hg, described, hnone, declaredOr, mem_usedTerminals]

/-- The rows `S → aA | ε`, `A → bA | ε` and `S → A`, with rows of `S` before and after those of
`A`. -/
def interleaved : Grammar :=
  { nonterminals := .ofList ['A', 'S']
    terminals := .ofList ['a', 'b', '0']
    start := 'S'
    productions :=
      [⟨'S', [.terminal 'a', .nonterminal 'A']⟩, ⟨'S', []⟩,
        ⟨'A', [.terminal 'b', .nonterminal 'A']⟩, ⟨'A', []⟩, ⟨'S', [.nonterminal 'A']⟩] }

/-- The terminals are declared and the nonterminals are not; both braces share lines with rows. -/
theorem grammar_of_read_interleaved :
    read 2 "T = b, a 0 # letters\nP = \x7b S -> a A | ε\n\nA → bA |\nS → A\x7d\nS = S" =
        .ok interleaved ∧
      interleaved.WellFormed ∧
      (interleaved.productions.map Production.lhs).toFinset.card ≤ 2 := by
  have hread : read 2
      "T = b, a 0 # letters\nP = \x7b S -> a A | ε\n\nA → bA |\nS → A\x7d\nS = S" =
        .ok interleaved := by rfl
  obtain ⟨hwell, -, hcard, -⟩ := grammar_of_read hread
  exact ⟨hread, hwell, hcard⟩

end Source

end PhraseStructure
