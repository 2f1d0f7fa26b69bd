import Mathlib.Algebra.Group.Nat.Defs
import PhraseStructure.Proofs.Canonical
import PhraseStructure.Proofs.WellFormed

/-!
# What a search without a derivation has ruled out

A search that ends without a derivation has looked at every form that it stored. If it had room,
every passing form within the step bound is stored, so the wanted string has no derivation within
the bound, in any order; and if no form was cut off at the bound, it has none at all.

* `not_generates_of_exhausted`: an end without a hit limit rules out every derivation.
* `length_le_of_search`: a derivation that is found keeps to the bound.
* `search_complete`: a string with a derivation within the bound is found, unless the room ran out.
-/

namespace PhraseStructure

namespace Finding

variable {f : Finding}

theorem belongs_eq_false_iff : f.belongs = false ↔ f.derivation = none := by
  simp [belongs]

theorem truncated_iff : f.truncated = true ↔
    f.belongs = false ∧ (f.effort.depthLimitHit = true ∨ f.effort.stateLimitHit = true) := by
  simp [truncated]

end Finding

namespace SearchState

variable {q : Query} {s : SearchState}

theorem lt_first_of_isDone (hdone : s.isDone = true) {i : Nat} {d : Derivation}
    (hd : (s.runs q)[i]? = some d) : i < s.first := by
  have hlt := lt_size_of_getElem? hd
  have hle : s.arena.size ≤ s.first := by simpa [isDone] using hdone
  omega

/-- **Nothing is missed.** At the end of a search that had room, no run leads to the wanted string
if all shorter runs on the list could be continued. -/
theorem Level.not_goal (hs : Level q s) (hq : q.Lawful) (hdone : s.isDone = true)
    (hroom : s.effort.stateLimitHit = false) {e : Derivation} (he : q.grammar.LeftmostRun e)
    (hbound : ∀ d ∈ s.runs q, d.endForm.isTerminal = false → d.length < e.length →
      q.atBound d.length = false) : e.endForm ≠ q.goal := by
  intro hgoal
  have hclosed : ∀ d ∈ s.runs q, ∀ step ∈ q.grammar.leftmostSteps d.endForm,
      q.sieve.passes step.form = true → (d.extend step).rank < toLex (e.length + 1, []) →
        Stores (s.runs q) step.form := by
    intro d hd step hstep hpasses hrank
    obtain ⟨i, hi⟩ := List.getElem?_of_mem hd
    have hlt : d.length < e.length := by
      rw [Derivation.rank, Prod.Lex.toLex_lt_toLex, Derivation.length_extend] at hrank
      rcases hrank with h | ⟨-, h⟩
      · exact Nat.lt_of_succ_lt_succ h
      · exact absurd h (List.not_lt_nil _)
    have hterm : d.endForm.isTerminal = false := by
      by_contra h
      rw [Bool.not_eq_false] at h
      rw [Grammar.leftmostSteps_of_isTerminal h] at hstep
      cases hstep
    have hlooked := lt_first_of_isDone hdone hi
    exact hs.closed hroom i d step hi (.inl ⟨hlooked, hbound d hd hterm hlt⟩) hstep hpasses
  have hpasses : q.sieve.passes e.endForm = true := by
    rw [hgoal]
    exact Sieve.passes_target hq
  have hrank : e.rank < toLex (e.length + 1, []) := by
    rw [Derivation.rank, Prod.Lex.toLex_lt_toLex]
    exact .inl (Nat.lt_succ_self _)
  obtain ⟨d, hd, hform⟩ := hs.catalogue.stores_of_rank_lt hq hclosed he (.inr hpasses) hrank
  obtain ⟨i, hi⟩ := List.getElem?_of_mem hd
  exact hs.looked i d hi (lt_first_of_isDone hdone hi) (hform.trans hgoal)

end SearchState

section

variable {g : Grammar} {cls : GrammarClass} {input : String} {limits : SearchLimits}

theorem exists_done_of_search (h : (search g cls input limits).derivation = none) :
    ∃ s, SearchState.Level (.new g cls input limits) s ∧ s.isDone = true ∧
      (search g cls input limits).effort = s.effort := by
  have hq := Query.lawful_new g cls input limits
  rcases SearchRun.levels_cases hq .initial (Nat.le_refl _) with
    ⟨s, hs, hdone, hfinding⟩ | ⟨s, -, index, s', -, hfinding⟩
  · refine ⟨s, hs.level hq, hdone, ?_⟩
    rw [search, SearchRun.ofQuery, hfinding]
    rfl
  · rw [search, SearchRun.ofQuery, hfinding] at h
    cases h

theorem exists_leftmostRun_of_generates (h : g.Generates input.toList) :
    ∃ e, g.LeftmostRun e ∧ e.endForm = input.toList.map Symbol.terminal := by
  obtain ⟨n, hn⟩ := h
  obtain ⟨e, he, -, hform⟩ := Grammar.exists_leftmostRun (Form.isTerminal_map_terminal _) hn
  exact ⟨e, he, hform⟩

/-- **An end without a hit limit rules out every derivation,** also under a step bound. -/
theorem not_generates_of_exhausted (h : (search g cls input limits).derivation = none)
    (hroom : (search g cls input limits).effort.stateLimitHit = false)
    (hdepth : (search g cls input limits).effort.depthLimitHit = false) :
    ¬ g.Generates input.toList := by
  intro hgen
  obtain ⟨s, hs, hdone, heffort⟩ := exists_done_of_search h
  rw [heffort] at hroom hdepth
  obtain ⟨e, he, hform⟩ := exists_leftmostRun_of_generates hgen
  refine hs.not_goal (Query.lawful_new g cls input limits) hdone hroom he ?_ hform
  intro d hd hterm _
  by_contra hbound
  rw [Bool.not_eq_false] at hbound
  obtain ⟨i, hi⟩ := List.getElem?_of_mem hd
  have hlooked := SearchState.lt_first_of_isDone hdone hi
  rw [hs.depthLimit.2 ⟨i, d, hi, hlooked, hterm, hbound⟩] at hdepth
  cases hdepth

theorem isSome_stepBound_of_depthLimitHit (hbelongs : (search g cls input limits).belongs = false)
    (hdepth : (search g cls input limits).effort.depthLimitHit = true) :
    (search g cls input limits).effort.stepBound.isSome = true := by
  obtain ⟨s, hs, -, heffort⟩ := exists_done_of_search (Finding.belongs_eq_false_iff.1 hbelongs)
  rw [heffort] at hdepth ⊢
  obtain ⟨-, d, -, -, -, hbound⟩ := hs.depthLimit.1 hdepth
  rw [hs.stepBound]
  unfold Query.atBound at hbound
  split at hbound
  · next bound hsome => rw [hsome]; rfl
  · cases hbound

/-- A rejection by a search that was not truncated is final. -/
theorem not_generates_of_not_truncated (hbelongs : (search g cls input limits).belongs = false)
    (h : ¬ (search g cls input limits).truncated = true) : ¬ g.Generates input.toList := by
  rw [Finding.truncated_iff, not_and_or, not_or, Bool.not_eq_true, Bool.not_eq_true] at h
  obtain ⟨hdepth, hroom⟩ := h.resolve_left (not_not_intro hbelongs)
  exact not_generates_of_exhausted (Finding.belongs_eq_false_iff.1 hbelongs) hroom hdepth

theorem derivesIn_of_search {d : Derivation}
    (h : (search g cls input limits).derivation = some d) :
    g.DerivesIn d.length g.startForm (input.toList.map Symbol.terminal) := by
  obtain ⟨ds, hcat, hd, hform⟩ := exists_catalogue_of_search h
  have hterm : d.endForm.isTerminal = true := by
    rw [hform]
    exact Form.isTerminal_map_terminal _
  obtain ⟨hvalid, -⟩ := Grammar.leftmostRun_iff.1 ⟨hcat.run d hd, hterm⟩
  rw [← hform]
  exact Grammar.derivesIn_of_validIn hvalid

theorem generates_of_search {d : Derivation}
    (h : (search g cls input limits).derivation = some d) : g.Generates input.toList :=
  ⟨d.length, derivesIn_of_search h⟩

/-- **A reported derivation keeps to the step bound.** -/
theorem length_le_of_search {d : Derivation}
    (h : (search g cls input limits).derivation = some d) :
    ∀ b ∈ (Query.new g cls input limits).stepBound, d.length ≤ b := by
  obtain ⟨s, -, hs, hdone, hlength, -⟩ := exists_level_of_search h
  rw [hlength]
  exact hs.depth_le hdone

/-- A nonterminal that is not declared has no production and derives no terminal string. -/
theorem Grammar.WellFormed.not_derives_nil (hg : g.WellFormed)
    (hfree : ∀ c ∈ g.nonterminals, ¬ g.Derives [.nonterminal c] []) (c : Char) :
    ¬ g.Derives [.nonterminal c] [] := by
  rintro ⟨n, hn⟩
  obtain ⟨p, hp, rfl, -⟩ := hn.nonterminal_cases rfl
  exact hfree p.lhs (hg.lhs_mem p hp) ⟨n, hn⟩

theorem stepBound_new_eq_none (hexact : limits.exactIfEpsilonFree = true)
    (hfree : ∀ c, ¬ g.Derives [.nonterminal c] []) :
    (Query.new g cls input limits).stepBound = none := by
  have hnullable : (ShortestYields.ofGrammar g).hasNullable = false := by
    by_contra h
    rw [Bool.not_eq_false, ShortestYields.hasNullable_iff] at h
    obtain ⟨c, hc⟩ := h
    exact hfree c hc
  simp [Query.new, hexact, hnullable]

theorem eq_of_mem_stepBound_new {b : Nat} (h : b ∈ (Query.new g cls input limits).stepBound) :
    b = limits.stepBound input.toList.length g.productions.length := by
  simp only [Query.new] at h
  split at h
  · cases h
  · exact (Option.some.inj h).symm

/-- A string with a derivation of `n` steps in any order is found by one that is no longer if the
bound allows `n` steps, unless the room runs out. -/
theorem found_or_stateLimitHit {n : Nat}
    (hn : g.DerivesIn n g.startForm (input.toList.map Symbol.terminal))
    (hbound : ∀ b ∈ (Query.new g cls input limits).stepBound, n ≤ b) :
    (∃ d, (search g cls input limits).derivation = some d ∧ d.length ≤ n) ∨
      (search g cls input limits).effort.stateLimitHit = true := by
  obtain ⟨e, he, hlen, hform⟩ := Grammar.exists_leftmostRun (Form.isTerminal_map_terminal _) hn
  cases hfound : (search g cls input limits).derivation with
  | some d =>
    obtain ⟨ds, hcat, hd, hgoal⟩ := exists_catalogue_of_search hfound
    have hle := hcat.least d hd e he (hform.trans hgoal.symm)
    rw [Derivation.rank_le_rank] at hle
    exact .inl ⟨d, rfl, by omega⟩
  | none =>
    right
    by_contra hroom
    rw [Bool.not_eq_true] at hroom
    obtain ⟨s, hs, hdone, heffort⟩ := exists_done_of_search hfound
    rw [heffort] at hroom
    refine hs.not_goal (Query.lawful_new g cls input limits) hdone hroom he ?_ hform
    intro d _ _ hlt
    unfold Query.atBound
    split
    · next b hb =>
      have hle := hbound b hb
      rw [decide_eq_false_iff_not]
      omega
    · rfl

/-- The string of a valid derivation that the bound allows is found, unless the room runs out. -/
theorem found_of_validIn {e : Derivation} (he : e.validIn g = true) (hword : e.word = input)
    (hbound : ∀ b ∈ (Query.new g cls input limits).stepBound, e.length ≤ b) :
    (∃ d, (search g cls input limits).derivation = some d ∧ d.length ≤ e.length) ∨
      (search g cls input limits).effort.stateLimitHit = true := by
  have hderives := Grammar.derivesIn_of_validIn he
  rw [Derivation.endForm_eq he hword] at hderives
  exact found_or_stateLimitHit hderives hbound

end

/-- **Every string with a derivation within the bound is found,** by one that is no longer, unless
the room runs out. The derivation may rewrite nonterminals in any order, and there is no bound if
it is lifted for a grammar without vanishing nonterminals. -/
theorem search_complete {text : String} {maxRules : Nat} {g : Grammar}
    (hread : Source.read maxRules text = .ok g) (cls : GrammarClass) (input : String)
    (limits : SearchLimits) {e : Derivation} (he : e.validIn g = true) (hword : e.word = input)
    (hbound : (limits.exactIfEpsilonFree = true ∧
        ∀ c ∈ g.nonterminals, ¬ g.Derives [.nonterminal c] []) ∨
      e.length ≤ min (2 ^ 64 - 1) (limits.lengthFactor * max 1 input.length +
        limits.extraSteps.getD g.productions.length)) :
    (∃ d, (search g cls input limits).derivation = some d ∧ d.length ≤ e.length) ∨
      (search g cls input limits).effort.stateLimitHit = true := by
  refine found_of_validIn he hword ?_
  intro b hb
  rcases hbound with ⟨hexact, hfree⟩ | hbound
  · -- There is no bound.
    have hvanish := (Source.wellFormed_of_read hread).not_derives_nil hfree
    rw [stepBound_new_eq_none hexact hvanish] at hb
    cases hb
  · rw [eq_of_mem_stepBound_new hb, SearchLimits.stepBound, saturate, String.length_toList,
      Nat.min_comm]
    exact hbound

/-- The string `aa` is derived in three steps, the second nonterminal first, and three is also the
bound. -/
theorem search_complete_doubling :
    Source.read 10 "S = S\nP = \x7b\nS -> SS | a | ε\n\x7d" = .ok doubling ∧
    (∃ d, (search doubling .contextFree "aa" ⟨1, some 1, 50, true⟩).derivation = some d ∧
      d.length ≤ 3) ∧
    (search doubling .contextFree "aa" ⟨1, some 1, 50, true⟩).effort.stateLimitHit = false := by
  have hread : Source.read 10 "S = S\nP = \x7b\nS -> SS | a | ε\n\x7d" = .ok doubling := by rfl
  have hroom :
      (search doubling .contextFree "aa" ⟨1, some 1, 50, true⟩).effort.stateLimitHit = false := by
    decide +kernel
  let e : Derivation := ⟨'S', [⟨[.nonterminal 'S', .nonterminal 'S'], 0, 0⟩,
    ⟨[.nonterminal 'S', .terminal 'a'], 1, 1⟩, ⟨[.terminal 'a', .terminal 'a'], 1, 0⟩]⟩
  refine ⟨hread, ?_, hroom⟩
  rcases search_complete (e := e) hread .contextFree "aa" ⟨1, some 1, 50, true⟩ (by decide)
    (by decide) (.inr (by decide)) with h | h
  · exact h
  · rw [hroom] at h
    cases h

end PhraseStructure
