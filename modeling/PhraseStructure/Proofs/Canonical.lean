import PhraseStructure.Proofs.SearchInvariant

/-!
# The derivation that is found

A search reports the first of all leftmost derivations of the string: the shortest, and of the
shortest the one with the least production numbers. Neither pruning nor the limits change it, so
it is also what the plain search reports that keeps every form, as often as it comes up
(`Grammar.plainSearch`).
-/

namespace PhraseStructure

/-! ## Searching without pruning -/

namespace Grammar

/-- The leftmost runs of a length, in the order in which breadth-first search comes to them when
it leaves out no form and keeps equal forms apart. -/
def plainLevel (g : Grammar) : Nat → List Derivation
  | 0 => [⟨g.start, []⟩]
  | n + 1 => (g.plainLevel n).flatMap fun d => (g.leftmostSteps d.endForm).map d.extend

/-- The first derivation of a string that this search comes to on the levels up to `n`. -/
def plainSearch (g : Grammar) (input : String) (n : Nat) : Option Derivation :=
  (List.range (n + 1)).findSome? fun k =>
    (g.plainLevel k).find? fun d => d.endForm == input.toList.map Symbol.terminal

variable {g : Grammar}

theorem mem_plainLevel {n : Nat} {d : Derivation} :
    d ∈ g.plainLevel n ↔ g.LeftmostRun d ∧ d.length = n := by
  constructor
  · intro h
    induction n generalizing d with
    | zero =>
      rw [List.mem_singleton.1 h]
      exact ⟨.start, rfl⟩
    | succ n ih =>
      obtain ⟨e, he, hd⟩ := List.mem_flatMap.1 h
      obtain ⟨step, hstep, rfl⟩ := List.mem_map.1 hd
      obtain ⟨hrun, hlen⟩ := ih he
      exact ⟨hrun.extend hstep, by rw [Derivation.length_extend, hlen]⟩
  · rintro ⟨hrun, rfl⟩
    induction hrun with
    | start => exact List.mem_singleton_self _
    | @extend d step _ hstep ih =>
      rw [Derivation.length_extend]
      exact List.mem_flatMap.2 ⟨d, ih, List.mem_map_of_mem hstep⟩

theorem plainLevel_pairwise (n : Nat) :
    (g.plainLevel n).Pairwise fun d e => d.rank < e.rank := by
  induction n with
  | zero => exact List.pairwise_singleton _ _
  | succ n ih =>
    refine List.pairwise_flatMap.2 ⟨?_, ?_⟩
    · intro d _
      rw [List.pairwise_map]
      refine (g.leftmostSteps_pairwise d.endForm).imp ?_
      intro s t hst
      exact Derivation.rank_extend_lt.2 (.inr ⟨rfl, hst⟩)
    · refine ih.imp ?_
      intro d e hde x hx y hy
      obtain ⟨s, -, rfl⟩ := List.mem_map.1 hx
      obtain ⟨t, -, rfl⟩ := List.mem_map.1 hy
      exact Derivation.rank_extend_lt.2 (.inl hde)

theorem plainSearch_eq_some {input : String} {d : Derivation} (hd : g.LeftmostRun d)
    (hform : d.endForm = input.toList.map Symbol.terminal)
    (hleast : ∀ e, g.LeftmostRun e → e.endForm = input.toList.map Symbol.terminal →
      d.rank ≤ e.rank) {n : Nat} (hn : d.length ≤ n) : g.plainSearch input n = some d := by
  have hnone : ∀ k < d.length,
      (g.plainLevel k).find? (fun e => e.endForm == input.toList.map Symbol.terminal) = none := by
    intro k hk
    rw [List.find?_eq_none]
    intro e he hgoal
    obtain ⟨hrun, hlen⟩ := mem_plainLevel.1 he
    have hle := hleast e hrun (beq_iff_eq.1 hgoal)
    rw [Derivation.rank_le_rank] at hle
    omega
  have hsome : (g.plainLevel d.length).find?
      (fun e => e.endForm == input.toList.map Symbol.terminal) = some d := by
    obtain ⟨before, later, hlevel⟩ := List.append_of_mem (mem_plainLevel.2 ⟨hd, rfl⟩)
    rw [List.find?_eq_some_iff_append]
    refine ⟨beq_iff_eq.2 hform, before, later, hlevel, ?_⟩
    intro e he
    rw [Bool.not_eq_true', beq_eq_false_iff_ne]
    intro hgoal
    have hmem : e ∈ g.plainLevel d.length := by
      rw [hlevel]
      exact List.mem_append_left _ he
    have hlt : e.rank < d.rank := by
      have hsorted := g.plainLevel_pairwise d.length
      rw [hlevel, List.pairwise_append] at hsorted
      exact hsorted.2.2 e he d List.mem_cons_self
    exact absurd (hleast e (mem_plainLevel.1 hmem).1 hgoal) (not_le.2 hlt)
  unfold plainSearch
  obtain ⟨m, rfl⟩ : ∃ m, n = d.length + m := ⟨n - d.length, by omega⟩
  rw [show d.length + m + 1 = d.length + (m + 1) by omega, List.range_add, List.findSome?_append,
    List.findSome?_eq_none_iff.2 fun k hk => hnone k (List.mem_range.1 hk), Option.none_or,
    List.range_succ_eq_map, List.map_cons, List.findSome?_cons, Nat.add_zero, hsome]

end Grammar

/-! ## What a search reports -/

/-- A reported derivation is one of the last level that was looked at, and leads to the wanted
string. -/
theorem exists_level_of_search {g : Grammar} {cls : GrammarClass} {input : String}
    {limits : SearchLimits} {d : Derivation}
    (h : (search g cls input limits).derivation = some d) :
    ∃ s s', SearchState.Reachable (.new g cls input limits) s ∧ s.isDone = false ∧
      d.length = s.depth ∧ SearchState.Stocked (.new g cls input limits) s' ∧
      d ∈ s'.runs (.new g cls input limits) ∧ d.endForm = input.toList.map Symbol.terminal := by
  have hq := Query.lawful_new g cls input limits
  rcases SearchRun.levels_cases hq .initial (Nat.le_refl _) with
    ⟨s, -, -, hfinding⟩ | ⟨s, hs, index, s', hadvance, hfinding⟩
  · rw [search, SearchRun.ofQuery, hfinding] at h
    cases h
  · rw [search, SearchRun.ofQuery, hfinding] at h
    obtain rfl := Option.some.inj h
    have hdone := SearchState.not_isDone_of_advance hadvance
    rcases (hs.level hq).advance hq with ⟨hnone, -⟩ | ⟨i, e, hsome, hstocked, he, hgoal, hlength⟩
    · rw [hadvance] at hnone
      cases hnone
    · rw [hadvance] at hsome hstocked he
      obtain rfl := Option.some.inj hsome
      rw [SearchState.derivation_eq he]
      exact ⟨s, s', hs, hdone, hlength, hstocked, List.mem_of_getElem? he, hgoal⟩

theorem exists_catalogue_of_search {g : Grammar} {cls : GrammarClass} {input : String}
    {limits : SearchLimits} {d : Derivation}
    (h : (search g cls input limits).derivation = some d) :
    ∃ ds, Catalogue (.new g cls input limits) ds ∧ d ∈ ds ∧
      d.endForm = input.toList.map Symbol.terminal := by
  obtain ⟨-, s', -, -, -, hstocked, hd, hgoal⟩ := exists_level_of_search h
  exact ⟨_, hstocked.catalogue, hd, hgoal⟩

theorem Derivation.endForm_eq {g : Grammar} {d : Derivation} (h : d.validIn g = true)
    {input : String} (hword : d.word = input) :
    d.endForm = input.toList.map Symbol.terminal := by
  have hterm : d.endForm.isTerminal = true := by
    simp only [validIn, Bool.and_eq_true] at h
    exact h.2
  rw [← hword, word, String.toList_ofList, Form.map_terminal_chars hterm]

/-- **The reported derivation is the canonical one**: it derives the string by leftmost steps, no
derivation of the string in any order is shorter, no leftmost one of the same length has smaller
production numbers, and it is the one that a search without pruning, duplicate elimination and
limits comes to first. -/
theorem search_canonical (g : Grammar) (cls : GrammarClass) (input : String)
    (limits : SearchLimits) {d : Derivation}
    (h : (search g cls input limits).derivation = some d) :
    d.validIn g = true ∧ d.word = input ∧ d.isLeftmost = true ∧
      (∀ e : Derivation, e.validIn g = true → e.word = input → d.length ≤ e.length) ∧
      (∀ e : Derivation, e.validIn g = true → e.word = input → e.isLeftmost = true →
        e.length = d.length → d.numbers ≤ e.numbers) ∧
      ∀ n, d.length ≤ n → g.plainSearch input n = some d := by
  obtain ⟨ds, hcat, hd, hform⟩ := exists_catalogue_of_search h
  have hrun : g.LeftmostRun d := hcat.run d hd
  have hleast : ∀ e, g.LeftmostRun e → e.endForm = input.toList.map Symbol.terminal →
      d.rank ≤ e.rank := by
    intro e he heForm
    exact hcat.least d hd e he (heForm.trans hform.symm)
  have hterm : d.endForm.isTerminal = true := by
    rw [hform]
    exact Form.isTerminal_map_terminal _
  obtain ⟨hvalid, hleftmost⟩ := Grammar.leftmostRun_iff.1 ⟨hrun, hterm⟩
  refine ⟨hvalid, ?_, hleftmost, ?_, ?_, ?_⟩
  · rw [Derivation.word, hform, Form.chars_map_terminal, String.ofList_toList]
  · intro e he heWord
    -- Reordered from the left, `e` is as long as before.
    have heForm := Derivation.endForm_eq he heWord
    have hderives := Grammar.derivesIn_of_validIn he
    rw [heForm] at hderives
    obtain ⟨f, hf, hlen, hfForm⟩ :=
      Grammar.exists_leftmostRun (Form.isTerminal_map_terminal _) hderives
    have hle := hleast f hf hfForm
    rw [Derivation.rank_le_rank] at hle
    omega
  · intro e he heWord heLeft heLen
    obtain ⟨heRun, -⟩ := Grammar.leftmostRun_iff.2 ⟨he, heLeft⟩
    have hle := hleast e heRun (Derivation.endForm_eq he heWord)
    rw [Derivation.rank_le_rank] at hle
    rcases hle with hlt | ⟨-, hle⟩
    · omega
    · exact hle
  · exact fun n hn => Grammar.plainSearch_eq_some hrun hform hleast hn

/-- The ambiguous grammar `S → SS | a | ε`, in which forms grow and vanish again. -/
def doubling : Grammar :=
  { nonterminals := .ofList ['S']
    terminals := .ofList ['a']
    start := 'S'
    productions :=
      [⟨'S', [.nonterminal 'S', .nonterminal 'S']⟩, ⟨'S', [.terminal 'a']⟩, ⟨'S', []⟩] }

/-- The string `aa` is found although the class is wrong and the room runs out on the way. -/
theorem search_canonical_doubling :
    ∃ d, (search doubling .regular "aa" { maxStates := 9 }).derivation = some d ∧
      (search doubling .regular "aa" { maxStates := 9 }).effort.stateLimitHit = true ∧
      d.validIn doubling = true ∧ d.word = "aa" ∧ d.isLeftmost = true ∧ d.numbers = [0, 1, 1] ∧
      (∀ e : Derivation, e.validIn doubling = true → e.word = "aa" → d.length ≤ e.length) ∧
      (∀ e : Derivation, e.validIn doubling = true → e.word = "aa" → e.isLeftmost = true →
        e.length = d.length → d.numbers ≤ e.numbers) ∧
      ∀ n, d.length ≤ n → doubling.plainSearch "aa" n = some d := by
  obtain ⟨d, hd⟩ : ∃ d, (search doubling .regular "aa" { maxStates := 9 }).derivation = some d :=
    Option.isSome_iff_exists.1 (by decide +kernel)
  have hnumbers : (search doubling .regular "aa" { maxStates := 9 }).derivation.map
      Derivation.numbers = some [0, 1, 1] := by decide +kernel
  rw [hd] at hnumbers
  obtain ⟨hvalid, hword, hleft, hshort, hleast, hplain⟩ := search_canonical _ _ _ _ hd
  exact ⟨d, hd, by decide +kernel, hvalid, hword, hleft, Option.some.inj hnumbers, hshort, hleast,
    hplain⟩

end PhraseStructure
