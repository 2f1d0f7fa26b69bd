import PhraseStructure.Proofs.Exactness
import PhraseStructure.Proofs.LargerLimits

/-!
# The part of a grammar that the start symbol reaches

Only nonterminals that the start symbol reaches matter to the strings that a grammar generates. If
none of them can be erased or comes back to itself, the derivations of a string are short: below
each of its characters there is a chain of different nonterminals. So a step bound of that size
loses nothing. Whether a search needs a bound at all is decided from the whole grammar, though: a
nonterminal that is never reached, but vanishes, brings the bound back, and if that is too small a
string may be missed (`missed_behind_unreached`).

* `IsFlat.length_le`: how long derivations are.
* `search_exact_or_cut_off`: the search is exact, or it says that the bound cut it off.
-/

namespace PhraseStructure

namespace Grammar

variable {g : Grammar}

/-! ## Reaching -/

/-- The nonterminal `c` derives a form in which `d` occurs. -/
def Reaches (g : Grammar) (c d : Char) : Prop :=
  ∃ form, g.Derives [.nonterminal c] form ∧ .nonterminal d ∈ form

theorem Reaches.refl (g : Grammar) (c : Char) : g.Reaches c c :=
  ⟨[.nonterminal c], ⟨0, .refl _⟩, List.mem_singleton_self _⟩

theorem Reaches.trans {c d e : Char} (h : g.Reaches c d) (h' : g.Reaches d e) :
    g.Reaches c e := by
  obtain ⟨form, ⟨n, hn⟩, hd⟩ := h
  obtain ⟨form', ⟨m, hm⟩, he⟩ := h'
  obtain ⟨left, right, rfl⟩ := List.append_of_mem hd
  refine ⟨left ++ (form' ++ right), ⟨n + m, hn.trans ?_⟩, ?_⟩
  · exact (hm.append_right right).append_left left
  · exact List.mem_append_right _ (List.mem_append_left _ he)

theorem reaches_of_mem_rhs {p : Production} (hp : p ∈ g.productions) {d : Char}
    (hd : .nonterminal d ∈ p.rhs) : g.Reaches p.lhs d :=
  ⟨p.rhs, ⟨1, .step (rewrites_singleton.2 ⟨p, hp, rfl, rfl⟩) (.refl _)⟩, hd⟩

/-- What right-hand sides hand on from a nonterminal holds of all nonterminals of its forms. -/
theorem DerivesIn.keeps_nonterminals {P : Char → Prop}
    (hrhs : ∀ p ∈ g.productions, P p.lhs → ∀ d, .nonterminal d ∈ p.rhs → P d) {n : Nat}
    {before after : Form} (h : g.DerivesIn n before after)
    (hbefore : ∀ d, .nonterminal d ∈ before → P d) : ∀ d, .nonterminal d ∈ after → P d := by
  refine h.keeps (P := fun form => ∀ d, .nonterminal d ∈ form → P d) ?_ hbefore
  rintro before after ⟨p, hp, left, right, rfl, rfl⟩ hP d hd
  have hlhs : P p.lhs := hP p.lhs (List.mem_append_right _ List.mem_cons_self)
  rw [List.mem_append, List.mem_append] at hd
  rcases hd with (hd | hd) | hd
  · exact hP d (List.mem_append_left _ hd)
  · exact hrhs p hp hlhs d hd
  · exact hP d (List.mem_append_right _ (List.mem_cons_of_mem _ hd))

theorem Reaches.keeps {P : Char → Prop}
    (hrhs : ∀ p ∈ g.productions, P p.lhs → ∀ d, .nonterminal d ∈ p.rhs → P d) {c d : Char}
    (h : g.Reaches c d) (hc : P c) : P d := by
  obtain ⟨form, ⟨n, hn⟩, hd⟩ := h
  refine hn.keeps_nonterminals hrhs ?_ d hd
  intro e he
  obtain rfl := Symbol.nonterminal.inj (List.mem_singleton.1 he)
  exact hc

/-- No nonterminal that the start symbol reaches has an empty right-hand side or derives a form in
which it occurs itself. -/
structure IsFlat (g : Grammar) : Prop where
  rhs_ne_nil : ∀ p ∈ g.productions, g.Reaches g.start p.lhs → p.rhs ≠ []
  not_recursive : ∀ c, g.Reaches g.start c → ∀ n form,
    g.DerivesIn (n + 1) [.nonterminal c] form → .nonterminal c ∉ form

namespace IsFlat

variable (hg : g.IsFlat)

include hg

/-- A nonterminal that is reached cannot vanish. -/
theorem not_derives_nil {c : Char} (hc : g.Reaches g.start c) :
    ¬ g.Derives [.nonterminal c] [] := by
  rintro ⟨n, hn⟩
  have hkeeps := hn.keeps (P := fun form => form ≠ [] ∧
    ∀ d, .nonterminal d ∈ form → g.Reaches g.start d) ?_ ⟨List.cons_ne_nil _ _, ?_⟩
  · exact hkeeps.1 rfl
  · rintro before after hrw ⟨-, hbefore⟩
    have hafter := DerivesIn.keeps_nonterminals
      (fun p hp hlhs d hd => hlhs.trans (reaches_of_mem_rhs hp hd))
      (.step hrw (.refl after)) hbefore
    obtain ⟨p, hp, left, right, rfl, rfl⟩ := hrw
    have hrhs := hg.rhs_ne_nil p hp (hbefore p.lhs (List.mem_append_right _ List.mem_cons_self))
    refine ⟨?_, hafter⟩
    simp [hrhs]
  · intro d hd
    obtain rfl := Symbol.nonterminal.inj (List.mem_singleton.1 hd)
    exact hc

/-- A right-hand side does not lead back to the nonterminal that it replaces. -/
theorem not_reaches_lhs {p : Production} (hp : p ∈ g.productions)
    (hlhs : g.Reaches g.start p.lhs) {d : Char} (hd : .nonterminal d ∈ p.rhs) :
    ¬ g.Reaches d p.lhs := by
  rintro ⟨form, ⟨n, hn⟩, hback⟩
  obtain ⟨left, right, hrhs⟩ := List.append_of_mem hd
  have hrest : g.DerivesIn n p.rhs (left ++ (form ++ right)) := by
    rw [hrhs]
    exact (hn.append_right right).append_left left
  have hstep := DerivesIn.step (rewrites_singleton.2 ⟨p, hp, rfl, rfl⟩) hrest
  refine hg.not_recursive p.lhs hlhs n _ hstep ?_
  exact List.mem_append_right _ (List.mem_append_left _ hback)

end IsFlat

/-! ## The length of derivations -/

open Classical in
/-- The nonterminals that a nonterminal reaches, itself included. -/
noncomputable def reached (g : Grammar) (c : Char) : Finset Char :=
  g.nonterminals.chars.toFinset.filter (g.Reaches c)

theorem mem_reached {c d : Char} : d ∈ g.reached c ↔ d ∈ g.nonterminals ∧ g.Reaches c d := by
  simp [reached, Alphabet.mem_def]

theorem card_reached_le (g : Grammar) (c : Char) :
    (g.reached c).card ≤ g.nonterminals.chars.length := by
  classical
  exact (Finset.card_filter_le _ _).trans (List.toFinset_card_le _)

/-- A derivation from a form has at most `k` steps for each character of the string, if this holds
of the derivations from each nonterminal of the form. -/
theorem DerivesIn.length_le_of_symbols {k m : Nat} {form : Form} {w : List Char}
    (h : g.DerivesIn m form (w.map Symbol.terminal))
    (hsymbols : ∀ d, .nonterminal d ∈ form → ∀ (i : Nat) (v : List Char),
      g.DerivesIn i [.nonterminal d] (v.map Symbol.terminal) → i ≤ k * v.length) :
    m ≤ k * w.length := by
  induction form generalizing m w with
  | nil =>
    obtain ⟨hm, -⟩ := h.of_isTerminal rfl
    omega
  | cons s rest ih =>
    obtain ⟨i, j, u, v, rfl, rfl, hu, hv⟩ := DerivesIn.split_word (a := [s]) h
    have hrest : j ≤ k * v.length :=
      ih hv fun d hd => hsymbols d (List.mem_cons_of_mem _ hd)
    have hfirst : i ≤ k * u.length := by
      cases s with
      | terminal c =>
        obtain ⟨hi, -⟩ := hu.of_isTerminal rfl
        omega
      | nonterminal c => exact hsymbols c List.mem_cons_self i u hu
    rw [List.length_append, Nat.mul_add]
    omega

namespace IsFlat

variable (hg : g.IsFlat) (hwf : g.WellFormed)

include hg hwf

theorem card_reached_lt {p : Production} (hp : p ∈ g.productions)
    (hlhs : g.Reaches g.start p.lhs) {d : Char} (hd : .nonterminal d ∈ p.rhs) :
    (g.reached d).card < (g.reached p.lhs).card := by
  have hreach := reaches_of_mem_rhs hp hd
  apply Finset.card_lt_card
  rw [Finset.ssubset_iff_of_subset]
  · refine ⟨p.lhs, mem_reached.2 ⟨hwf.lhs_mem p hp, .refl g p.lhs⟩, ?_⟩
    intro hback
    exact hg.not_reaches_lhs hp hlhs hd (mem_reached.1 hback).2
  · intro e he
    obtain ⟨hmem, hde⟩ := mem_reached.1 he
    exact mem_reached.2 ⟨hmem, hreach.trans hde⟩

/-- **Derivations are short.** Below each character of the string stands a chain of different
nonterminals, and all chains begin with the same one. -/
theorem length_le {k : Nat} {c : Char} (hc : g.Reaches g.start c)
    (hcard : (g.reached c).card ≤ k + 1) {n : Nat} {w : List Char}
    (h : g.DerivesIn n [.nonterminal c] (w.map Symbol.terminal)) : n ≤ k * w.length + 1 := by
  -- Induction on the number of nonterminals that are reached: right-hand sides reach fewer.
  induction k generalizing c n w with
  | zero =>
    obtain ⟨p, hp, rfl, m, rfl, hm⟩ := h.nonterminal_cases (Form.isTerminal_map_terminal w)
    have hzero : m ≤ 0 * w.length := by
      refine hm.length_le_of_symbols ?_
      intro d hd
      have hlt := hg.card_reached_lt hwf hp hc hd
      have hpos : 0 < (g.reached d).card :=
        Finset.card_pos.2 ⟨d, mem_reached.2 ⟨hwf.rhs_declared p hp _ hd, .refl g d⟩⟩
      omega
    omega
  | succ k ih =>
    obtain ⟨p, hp, rfl, m, rfl, hm⟩ := h.nonterminal_cases (Form.isTerminal_map_terminal w)
    have hrhs : m ≤ (k + 1) * w.length := by
      refine hm.length_le_of_symbols ?_
      intro d hd i v hv
      have hreach : g.Reaches g.start d := hc.trans (reaches_of_mem_rhs hp hd)
      have hlt := hg.card_reached_lt hwf hp hc hd
      have hi : i ≤ k * v.length + 1 := ih hreach (by omega) hv
      -- The string is not empty, so it pays for the first step.
      have hpos : 0 < v.length := by
        refine List.length_pos_of_ne_nil ?_
        rintro rfl
        exact hg.not_derives_nil hreach ⟨i, hv⟩
      rw [Nat.add_mul]
      omega
    omega

end IsFlat

/-- A grammar whose right-hand sides only hold smaller nonterminals does not come back to any. -/
theorem not_recursive_of_rank (rank : Char → Nat)
    (hrank : ∀ p ∈ g.productions, ∀ s ∈ p.rhs, s.isTerminal = true ∨ rank s.char < rank p.lhs)
    {n : Nat} {c : Char} {form : Form} (h : g.DerivesIn (n + 1) [.nonterminal c] form) :
    .nonterminal c ∉ form := by
  have hsmaller : ∀ p ∈ g.productions, ∀ d, .nonterminal d ∈ p.rhs → rank d < rank p.lhs := by
    intro p hp d hd
    exact (hrank p hp _ hd).resolve_left Bool.false_ne_true
  intro hmem
  cases h with
  | step hrw hrest =>
    obtain ⟨p, hp, rfl, rfl⟩ := rewrites_singleton.1 hrw
    have hlt := hrest.keeps_nonterminals (P := fun d => rank d < rank p.lhs)
      (fun q hq hlhs d hd => (hsmaller q hq d hd).trans hlhs) (hsmaller p hp) p.lhs hmem
    exact Nat.lt_irrefl _ hlt

end Grammar

/-! ## Searches -/

/-- **In a flat grammar the search is exact, or it says that the bound cut it off.** It misses a
string only if it runs out of room, or if some nonterminal that the start symbol does not reach
vanishes, so that the step bound is kept, and this bound is less than the length of the longest
derivation that a string of this length can have. -/
theorem search_exact_or_cut_off {text : String} {maxRules : Nat} {g : Grammar}
    (hread : Source.read maxRules text = .ok g) (hflat : g.IsFlat) (cls : GrammarClass)
    (input : String) (limits : SearchLimits) (hexact : limits.exactIfEpsilonFree = true) :
    (search g cls input limits).effort.stateLimitHit = true ∨
    ((search g cls input limits).belongs = true ↔ g.Generates input.toList) ∨
    (search g cls input limits).effort.depthLimitHit = true ∧
      (∃ c ∈ g.nonterminals, ¬ g.Reaches g.start c ∧ g.Derives [.nonterminal c] []) ∧
      ∃ b, (search g cls input limits).effort.stepBound = some b ∧
        b < ((g.reached g.start).card - 1) * input.length + 1 := by
  have hwf := Source.wellFormed_of_read hread
  by_cases hroom : (search g cls input limits).effort.stateLimitHit = true
  · exact .inl hroom
  right
  cases hfound : (search g cls input limits).derivation with
  | some d =>
    left
    have hbelongs : (search g cls input limits).belongs = true :=
      Option.isSome_iff_exists.2 ⟨d, hfound⟩
    exact iff_of_true hbelongs (generates_of_search hfound)
  | none =>
    by_cases hgen : g.Generates input.toList
    · right
      have hdepth : (search g cls input limits).effort.depthLimitHit = true := by
        by_contra hdepth
        rw [Bool.not_eq_true] at hroom hdepth
        exact not_generates_of_exhausted hfound hroom hdepth hgen
      obtain ⟨n, hn⟩ := hgen
      have hlen : n ≤ ((g.reached g.start).card - 1) * input.toList.length + 1 :=
        hflat.length_le hwf (.refl g g.start) (by omega) hn
      have hshort : ∃ b, (Query.new g cls input limits).stepBound = some b ∧ b < n := by
        by_contra hnone
        have hbound : ∀ b ∈ (Query.new g cls input limits).stepBound, n ≤ b := by
          intro b hb
          by_contra hlt
          exact hnone ⟨b, hb, by omega⟩
        rcases found_or_stateLimitHit hn hbound with ⟨d, hd, -⟩ | hhit
        · rw [hfound] at hd
          cases hd
        · exact hroom hhit
      obtain ⟨b, hb, hlt⟩ := hshort
      have hvanish : ∃ c, g.Derives [.nonterminal c] [] := by
        by_contra hfree
        rw [stepBound_new_eq_none hexact fun c hc => hfree ⟨c, hc⟩] at hb
        cases hb
      obtain ⟨c, m, hm⟩ := hvanish
      obtain ⟨p, hp, rfl, -⟩ := hm.nonterminal_cases rfl
      refine ⟨hdepth, ⟨p.lhs, hwf.lhs_mem p hp, ?_, m, hm⟩, b, ?_, ?_⟩
      · intro hreach
        exact hflat.not_derives_nil hreach ⟨m, hm⟩
      · rw [stepBound_search, hb]
      · rw [String.length_toList] at hlen
        omega
    · left
      refine iff_of_false ?_ hgen
      rw [Finding.belongs, hfound]
      exact Bool.false_ne_true

/-- The grammar `S → AA`, `A → B`, and so on to `H → a`, with `U → ε` besides. -/
def chained : Grammar :=
  { nonterminals := .ofList ['A', 'B', 'C', 'D', 'E', 'F', 'G', 'H', 'S', 'U']
    terminals := .ofList ['a']
    start := 'S'
    productions :=
      [⟨'S', [.nonterminal 'A', .nonterminal 'A']⟩, ⟨'A', [.nonterminal 'B']⟩,
        ⟨'B', [.nonterminal 'C']⟩, ⟨'C', [.nonterminal 'D']⟩, ⟨'D', [.nonterminal 'E']⟩,
        ⟨'E', [.nonterminal 'F']⟩, ⟨'F', [.nonterminal 'G']⟩, ⟨'G', [.nonterminal 'H']⟩,
        ⟨'H', [.terminal 'a']⟩, ⟨'U', []⟩] }

def chainedText : String :=
  "S = S\nP = \x7b\nS -> AA\nA -> B\nB -> C\nC -> D\nD -> E\nE -> F\nF -> G\nG -> H\nH -> a\nU -> ε\n\x7d"

theorem read_chainedText : Source.read 10 chainedText = .ok chained := by rfl

theorem isFlat_chained : chained.IsFlat where
  rhs_ne_nil := by
    intro p hp hreach hnil
    -- `U` stands on no right-hand side, so it is not reached.
    have hne : p.lhs ≠ 'U' := by
      refine hreach.keeps (P := (· ≠ 'U')) ?_ (by decide)
      rintro q hq - d hd rfl
      have hnot : ∀ q ∈ chained.productions, .nonterminal 'U' ∉ q.rhs := by decide
      exact hnot q hq hd
    have hall : ∀ q ∈ chained.productions, q.rhs = [] → q.lhs = 'U' := by decide
    exact hne (hall p hp hnil)
  not_recursive := by
    intro c _ n form h
    refine Grammar.not_recursive_of_rank
      (fun c => if c = 'S' then 8 else 'H'.toNat - c.toNat) ?_ h
    decide

/-- The string `aa` takes seventeen steps and is missed with the fourteen of the usual limits,
although no nonterminal that `S` reaches vanishes or comes back. -/
theorem missed_behind_unreached :
    Source.read 10 chainedText = .ok chained ∧ chained.IsFlat ∧
    (search chained chained.classify "aa" {}).effort.stateLimitHit = false ∧
    ¬ ((search chained chained.classify "aa" {}).belongs = true ↔
      chained.Generates "aa".toList) := by
  refine ⟨read_chainedText, isFlat_chained, by decide +kernel, ?_⟩
  have hmissed : (search chained chained.classify "aa" {}).belongs = false := by decide +kernel
  have hlong : (search chained chained.classify "aa" ⟨2, some 13, 100, true⟩).belongs = true := by
    decide +kernel
  obtain ⟨d, hd⟩ := Option.isSome_iff_exists.1 hlong
  intro hiff
  have hbelongs := hiff.2 (generates_of_search hd)
  rw [hmissed] at hbelongs
  cases hbelongs

/-- With nineteen steps allowed, which is more than any derivation of `aa` needs, the search is
exact. -/
theorem search_exact_or_cut_off_chained :
    Source.read 10 chainedText = .ok chained ∧ chained.IsFlat ∧
    ((search chained chained.classify "aa" ⟨2, some 15, 100, true⟩).belongs = true ↔
      chained.Generates "aa".toList) := by
  refine ⟨read_chainedText, isFlat_chained, ?_⟩
  have hbound : (search chained chained.classify "aa" ⟨2, some 15, 100, true⟩).effort.stepBound =
      some 19 := by decide +kernel
  have hcard : (chained.reached chained.start).card ≤ 10 := chained.card_reached_le chained.start
  rcases search_exact_or_cut_off read_chainedText isFlat_chained chained.classify "aa"
    ⟨2, some 15, 100, true⟩ rfl with hroom | hexact | ⟨-, -, b, hb, hlt⟩
  · exact absurd hroom (by decide +kernel)
  · exact hexact
  · have hb' : 19 = b := Option.some.inj (hbound.symm.trans hb)
    have hlen : "aa".length = 2 := by decide
    rw [hlen] at hlt
    omega

end PhraseStructure
