import PhraseStructure.Proofs.Arena

/-!
# What a search keeps

The runs to the forms that a search has stored are a catalogue at every moment. Inside a level,
`Scanning` says how far the level has been looked at and what follows from it: no form before this
point is the wanted one, and unless a limit was hit, all passing successors of these forms are
stored. One lemma for each operation of the search shows that it keeps `Scanning`.

* `Scanning.offer`, `Scanning.expand`: storing one successor, and all successors of a node.
* `Scanning.scan`, `Level.advance`: looking at the rest of a level, and going on to the next one.
-/

namespace PhraseStructure

namespace Query

theorem atBound_mono {q : Query} {n m : Nat} (h : n ≤ m) (hm : q.atBound m = false) :
    q.atBound n = false := by
  unfold atBound at hm ⊢
  split at hm
  · simp only [decide_eq_false_iff_not] at hm ⊢
    omega
  · rfl

end Query

namespace SearchState

/-- The runs to the stored forms. -/
def runs (q : Query) (s : SearchState) : List Derivation := s.arena.derivations q.grammar.start

/-- What holds at every moment of a search: the runs to the stored forms are a catalogue, and only
a form that finds no room is left out. -/
structure Stocked (q : Query) (s : SearchState) : Prop where
  linked : s.arena.Linked q.grammar
  catalogue : Catalogue q (s.runs q)
  size_le : s.arena.size ≤ max 1 q.maxStates
  full : s.effort.stateLimitHit = true → q.maxStates ≤ s.arena.size ∧
    ∃ e, q.grammar.LeftmostRun e ∧ q.sieve.passes e.endForm = true ∧
      ¬ Stores (s.runs q) e.endForm
  stepBound : s.effort.stepBound = q.stepBound

/-- A search in the middle of a level that ends before node `last`: the nodes before `k` have been
looked at, and node `k` has been rewritten by the steps `tried`. -/
structure Scanning (q : Query) (last k : Nat) (tried : List Step) (s : SearchState) : Prop
    extends Stocked q s where
  first_le : s.first ≤ k
  le_last : k ≤ last
  last_le : last ≤ s.arena.size
  earlier : ∀ (i : Nat) (d : Derivation), (s.runs q)[i]? = some d → i < s.first →
    d.length < s.depth
  level : ∀ (i : Nat) (d : Derivation), (s.runs q)[i]? = some d → s.first ≤ i → i < last →
    d.length = s.depth
  added : ∀ (i : Nat) (d : Derivation), (s.runs q)[i]? = some d → last ≤ i →
    ∃ (j : Nat) (e : Derivation) (step : Step), (s.runs q)[j]? = some e ∧ d = e.extend step ∧
      s.first ≤ j ∧ j < last ∧ (j < k ∨ j = k ∧ step ∈ tried)
  looked : ∀ (i : Nat) (d : Derivation), (s.runs q)[i]? = some d → i < k → d.endForm ≠ q.goal
  closed : s.effort.stateLimitHit = false → ∀ (i : Nat) (d : Derivation) (step : Step),
    (s.runs q)[i]? = some d → (i < k ∧ q.atBound d.length = false ∨ i = k ∧ step ∈ tried) →
      step ∈ q.grammar.leftmostSteps d.endForm → q.sieve.passes step.form = true →
        Stores (s.runs q) step.form
  depthLimit : s.effort.depthLimitHit = true ↔ ∃ (i : Nat) (d : Derivation),
    (s.runs q)[i]? = some d ∧ i < k ∧ d.endForm.isTerminal = false ∧ q.atBound d.length = true

variable {q : Query} {s : SearchState} {last k : Nat} {tried : List Step} {d : Derivation}

@[simp] theorem length_runs (q : Query) (s : SearchState) : (s.runs q).length = s.arena.size :=
  s.arena.length_derivations _

theorem lt_size_of_getElem? {i : Nat} (hd : (s.runs q)[i]? = some d) : i < s.arena.size := by
  rw [← length_runs q s]
  exact (List.getElem?_eq_some_iff.1 hd).1

theorem derivation_eq {i : Nat} (hd : (s.runs q)[i]? = some d) :
    s.arena.derivation q.grammar.start i = d := by
  have hlt := lt_size_of_getElem? hd
  rw [runs, Arena.getElem?_derivations hlt] at hd
  exact Option.some.inj hd

theorem getElem?_of_isPrefix {ds es : List Derivation} (h : ds <+: es) {i : Nat}
    (hd : ds[i]? = some d) : es[i]? = some d := by
  obtain ⟨later, rfl⟩ := h
  rw [List.getElem?_append_left (List.getElem?_eq_some_iff.1 hd).1]
  exact hd

/-! ## Storing one successor -/

@[simp] theorem offer_depth (q : Query) (parent : Nat) (s : SearchState) (step : Step) :
    (s.offer q parent step).depth = s.depth := by
  unfold offer
  split
  · rfl
  · split <;> rfl

/-- A step changes nothing if its form need not be stored. -/
theorem Scanning.skip (hs : Scanning q last k tried s) {step : Step}
    (h : s.effort.stateLimitHit = true ∨ q.sieve.passes step.form = false ∨
      Stores (s.runs q) step.form) :
    Scanning q last k (tried ++ [step]) s where
  __ := hs
  added := by
    intro i e he hi
    obtain ⟨j, f, t, hf, rfl, hj, hlast, htried⟩ := hs.added i e he hi
    refine ⟨j, f, t, hf, rfl, hj, hlast, ?_⟩
    exact htried.imp_right fun ⟨hjk, ht⟩ => ⟨hjk, List.mem_append_left _ ht⟩
  closed := by
    intro hroom i e t he hi ht hpasses
    rcases hi with hi | ⟨rfl, hi⟩
    · exact hs.closed hroom i e t he (.inl hi) ht hpasses
    rcases List.mem_append.1 hi with hi | hi
    · exact hs.closed hroom i e t he (.inr ⟨rfl, hi⟩) ht hpasses
    rw [List.mem_singleton.1 hi] at hpasses ⊢
    rcases h with h | h | h
    · rw [hroom] at h
      cases h
    · rw [hpasses] at h
      cases h
    · exact h

/-- The runs of a level are ranked before every extension of its next run. -/
theorem Scanning.rank_lt_extend (hs : Scanning q last k tried s) (hd : (s.runs q)[k]? = some d)
    (hk : k < last) {step : Step} {rest : List Step}
    (hsteps : q.grammar.leftmostSteps d.endForm = tried ++ step :: rest) :
    ∀ e ∈ s.runs q, e.rank < (d.extend step).rank := by
  intro e he
  obtain ⟨i, hi⟩ := List.getElem?_of_mem he
  have hlen := hs.level k d hd hs.first_le hk
  rcases Nat.lt_or_ge i last with hlt | hge
  · -- The forms of this level and the earlier ones have shorter runs.
    rw [Derivation.rank_lt_rank, Derivation.length_extend]
    left
    rcases Nat.lt_or_ge i s.first with h | h
    · have := hs.earlier i e hi h
      omega
    · have := hs.level i e hi h hlt
      omega
  · -- The forms of the next level come from earlier nodes, or from this one by earlier steps.
    obtain ⟨j, f, t, hf, rfl, -, -, hj⟩ := hs.added i e hi hge
    rw [Derivation.rank_extend_lt]
    rcases hj with hj | ⟨rfl, ht⟩
    · exact .inl (hs.catalogue.rank_lt_of_lt hf hd hj)
    · obtain rfl := Option.some.inj (hf.symm.trans hd)
      have hsorted := q.grammar.leftmostSteps_pairwise f.endForm
      rw [hsteps, List.pairwise_append] at hsorted
      exact .inr ⟨rfl, hsorted.2.2 t ht step List.mem_cons_self⟩

/-- All earlier extensions are stored, as far as they pass. -/
theorem Scanning.stores_of_extend_lt (hs : Scanning q last k tried s)
    (hd : (s.runs q)[k]? = some d) (hk : k < last) (hroom : s.effort.stateLimitHit = false)
    (hbound : q.atBound s.depth = false) {step : Step} {rest : List Step}
    (hsteps : q.grammar.leftmostSteps d.endForm = tried ++ step :: rest) :
    ∀ e ∈ s.runs q, ∀ t ∈ q.grammar.leftmostSteps e.endForm, q.sieve.passes t.form = true →
      (e.extend t).rank < (d.extend step).rank → Stores (s.runs q) t.form := by
  intro e he t ht hpasses hrank
  obtain ⟨i, hi⟩ := List.getElem?_of_mem he
  rcases Derivation.rank_extend_lt.1 hrank with hlt | ⟨heq, hlt⟩
  · have hik := hs.catalogue.lt_of_rank_lt hi hd hlt
    have hle : e.length ≤ s.depth := by
      rcases Nat.lt_or_ge i s.first with h | h
      · exact (hs.earlier i e hi h).le
      · exact (hs.level i e hi h (hik.trans hk)).le
    exact hs.closed hroom i e t hi (.inl ⟨hik, Query.atBound_mono hle hbound⟩) ht hpasses
  · -- An earlier step of the same node has been tried.
    obtain rfl := hs.catalogue.eq_of_rank_eq hi hd heq
    have hsorted := q.grammar.leftmostSteps_pairwise e.endForm
    rw [hsteps, List.pairwise_append, List.pairwise_cons] at hsorted
    have hmem := ht
    rw [hsteps, List.mem_append, List.mem_cons] at hmem
    rcases hmem with hmem | rfl | hmem
    · exact hs.closed hroom k e t hd (.inr ⟨rfl, hmem⟩) ht hpasses
    · exact absurd hlt (Nat.lt_irrefl _)
    · exact absurd hlt (hsorted.2.1.1 t hmem).asymm

theorem runs_push (hlinked : s.arena.Linked q.grammar) (hd : (s.runs q)[k]? = some d)
    (step : Step) :
    runs q { s with arena := s.arena.push k step } = s.runs q ++ [d.extend step] := by
  rw [← derivation_eq hd]
  exact hlinked.derivations_push (lt_size_of_getElem? hd) step _

theorem getElem?_runs_push (hlinked : s.arena.Linked q.grammar) (hd : (s.runs q)[k]? = some d)
    (step : Step) {i : Nat} (hi : i < s.arena.size) :
    (runs q { s with arena := s.arena.push k step })[i]? = (s.runs q)[i]? := by
  rw [runs_push hlinked hd step, List.getElem?_append_left (by simpa using hi)]

/-- A new passing form can be stored if its run is ranked after all others, and no earlier run to a
passing form is missing. -/
theorem Stocked.push (hs : Stocked q s) (hq : q.Lawful) (hd : (s.runs q)[k]? = some d)
    {step : Step} (hstep : step ∈ q.grammar.leftmostSteps d.endForm)
    (hlimit : s.effort.stateLimitHit = false) (hpasses : q.sieve.passes step.form = true)
    (hnew : ¬ Stores (s.runs q) step.form) (hroom : s.arena.size < q.maxStates)
    (hlast : ∀ e ∈ s.runs q, e.rank < (d.extend step).rank)
    (hclosed : ∀ e ∈ s.runs q, ∀ t ∈ q.grammar.leftmostSteps e.endForm,
      q.sieve.passes t.form = true → (e.extend t).rank < (d.extend step).rank →
        Stores (s.runs q) t.form) :
    Stocked q { s with arena := s.arena.push k step } where
  linked := hs.linked.push (lt_size_of_getElem? hd) step
  catalogue := by
    rw [runs_push hs.linked hd step]
    exact hs.catalogue.push hq (List.mem_of_getElem? hd) hstep hpasses hnew hlast hclosed
  size_le := by
    show (s.arena.push k step).size ≤ max 1 q.maxStates
    rw [Arena.size_push]
    omega
  full := by
    intro hfull
    rw [show s.effort.stateLimitHit = true from hfull] at hlimit
    cases hlimit
  stepBound := hs.stepBound

theorem Scanning.push (hs : Scanning q last k tried s) (hq : q.Lawful)
    (hd : (s.runs q)[k]? = some d) (hk : k < last) (hbound : q.atBound s.depth = false)
    {step : Step} {rest : List Step}
    (hsteps : q.grammar.leftmostSteps d.endForm = tried ++ step :: rest)
    (hlimit : s.effort.stateLimitHit = false) (hpasses : q.sieve.passes step.form = true)
    (hnew : ¬ Stores (s.runs q) step.form) (hroom : s.arena.size < q.maxStates) :
    Scanning q last k (tried ++ [step]) { s with arena := s.arena.push k step } := by
  have hstep : step ∈ q.grammar.leftmostSteps d.endForm := by
    rw [hsteps]
    exact List.mem_append_right _ List.mem_cons_self
  have hstocked := hs.toStocked.push hq hd hstep hlimit hpasses hnew hroom
    (hs.rank_lt_extend hd hk hsteps) (hs.stores_of_extend_lt hd hk hlimit hbound hsteps)
  have hlastLe := hs.last_le
  -- The level and the nodes before it stay as they are.
  have hold : ∀ i, i < last →
      (runs q { s with arena := s.arena.push k step })[i]? = (s.runs q)[i]? :=
    fun i hi => getElem?_runs_push hs.linked hd step (by omega)
  refine
    { toStocked := hstocked
      first_le := hs.first_le
      le_last := hs.le_last
      last_le := ?last_le, earlier := ?earlier, level := ?level, added := ?added
      looked := ?looked, closed := ?closed, depthLimit := ?depthLimit }
  case last_le =>
    show last ≤ (s.arena.push k step).size
    rw [Arena.size_push]
    omega
  case earlier =>
    intro i e he hi
    have hfirst := hs.first_le
    rw [hold i (by simp only at hi; omega)] at he
    exact hs.earlier i e he hi
  case level =>
    intro i e he hi hlast
    rw [hold i hlast] at he
    exact hs.level i e he hi hlast
  case added =>
    intro i e he hi
    rcases Nat.lt_or_ge i s.arena.size with hlt | hge
    · rw [getElem?_runs_push hs.linked hd step hlt] at he
      obtain ⟨j, f, t, hf, rfl, hj, hjlast, htried⟩ := hs.added i e he hi
      rw [← hold j hjlast] at hf
      refine ⟨j, f, t, hf, rfl, hj, hjlast, ?_⟩
      exact htried.imp_right fun ⟨hjk, ht⟩ => ⟨hjk, List.mem_append_left _ ht⟩
    · -- The form just stored comes from node `k`.
      rw [runs_push hs.linked hd step, List.getElem?_append_right (by simpa using hge)] at he
      have hnewRun := List.mem_singleton.1 (List.mem_of_getElem? he)
      rw [← hold k hk] at hd
      exact ⟨k, d, step, hd, hnewRun, hs.first_le, hk, .inr ⟨rfl, by simp⟩⟩
  case looked =>
    intro i e he hi
    rw [hold i (by omega)] at he
    exact hs.looked i e he hi
  case closed =>
    intro hroom i e t he hi ht htpasses
    have hik : i ≤ k := by
      rcases hi with hi | hi
      · exact hi.1.le
      · exact hi.1.le
    rw [hold i (by omega)] at he
    rw [runs_push hs.linked hd step]
    rcases hi with hi | ⟨rfl, hi⟩
    · exact (hs.closed hroom i e t he (.inl hi) ht htpasses).append _
    rcases List.mem_append.1 hi with hi | hi
    · exact (hs.closed hroom i e t he (.inr ⟨rfl, hi⟩) ht htpasses).append _
    · rw [List.mem_singleton.1 hi]
      exact ⟨d.extend step, by simp, Derivation.endForm_extend d step⟩
  case depthLimit =>
    refine hs.depthLimit.trans ?_
    constructor
    · rintro ⟨i, e, he, hi, hrest⟩
      exact ⟨i, e, by rw [hold i (by omega)]; exact he, hi, hrest⟩
    · rintro ⟨i, e, he, hi, hrest⟩
      rw [hold i (by omega)] at he
      exact ⟨i, e, he, hi, hrest⟩

theorem Scanning.stop (hs : Scanning q last k tried s) (hfull : q.maxStates ≤ s.arena.size)
    {e : Derivation} (he : q.grammar.LeftmostRun e) (hpasses : q.sieve.passes e.endForm = true)
    (hnew : ¬ Stores (s.runs q) e.endForm) :
    Scanning q last k tried { s with effort.stateLimitHit := true } where
  __ := hs
  closed := by
    intro h
    cases h
  full := fun _ => ⟨hfull, e, he, hpasses, hnew⟩

/-- **Offering a successor keeps the invariant,** and only appends to the runs. -/
theorem Scanning.offer (hs : Scanning q last k tried s) (hq : q.Lawful)
    (hd : (s.runs q)[k]? = some d) (hk : k < last) (hbound : q.atBound s.depth = false)
    {step : Step} {rest : List Step}
    (hsteps : q.grammar.leftmostSteps d.endForm = tried ++ step :: rest) :
    Scanning q last k (tried ++ [step]) (s.offer q k step) ∧
      s.runs q <+: (s.offer q k step).runs q := by
  have hseen : s.arena.seen.contains step.form = true ↔ Stores (s.runs q) step.form := by
    rw [Std.TreeSet.contains_iff_mem]
    exact hs.linked.mem_seen_iff
  unfold SearchState.offer
  split
  · next h =>
    simp only [Bool.or_eq_true, Bool.not_eq_true', hseen] at h
    exact ⟨hs.skip (by tauto), List.prefix_rfl⟩
  · next h =>
    simp only [Bool.or_eq_true, Bool.not_eq_true', hseen, not_or, Bool.not_eq_true,
      Bool.not_eq_false] at h
    obtain ⟨⟨hlimit, hpasses⟩, hnew⟩ := h
    split
    · next hfull =>
      -- The form that finds no room is the one that `Stocked.full` asks for.
      have hstep : step ∈ q.grammar.leftmostSteps d.endForm := by
        rw [hsteps]
        exact List.mem_append_right _ List.mem_cons_self
      have hrun := (hs.catalogue.run d (List.mem_of_getElem? hd)).extend hstep
      rw [← Derivation.endForm_extend d step] at hpasses hnew
      exact ⟨(hs.stop hfull hrun hpasses hnew).skip (.inl rfl), List.prefix_rfl⟩
    · next hroom =>
      refine ⟨hs.push hq hd hk hbound hsteps hlimit hpasses hnew (by omega), ?_⟩
      rw [runs_push hs.linked hd step]
      exact List.prefix_append _ _

/-! ## Looking at one node -/

theorem Scanning.foldl_offer (hs : Scanning q last k tried s) (hq : q.Lawful)
    (hd : (s.runs q)[k]? = some d) (hk : k < last) (hbound : q.atBound s.depth = false)
    {rest : List Step} (hsteps : q.grammar.leftmostSteps d.endForm = tried ++ rest) :
    Scanning q last k (q.grammar.leftmostSteps d.endForm) (rest.foldl (SearchState.offer q k) s) ∧
      s.runs q <+: (rest.foldl (SearchState.offer q k) s).runs q := by
  induction rest generalizing tried s with
  | nil =>
    rw [hsteps, List.append_nil]
    exact ⟨hs, List.prefix_rfl⟩
  | cons step rest ih =>
    obtain ⟨hs', hruns⟩ := hs.offer hq hd hk hbound hsteps
    have hd' := getElem?_of_isPrefix hruns hd
    rw [← s.offer_depth q k step] at hbound
    obtain ⟨hs'', hruns'⟩ := ih hs' hd' hbound (by rw [hsteps]; simp)
    exact ⟨hs'', hruns.trans hruns'⟩

theorem Scanning.next (hs : Scanning q last k tried s) (hd : (s.runs q)[k]? = some d)
    (hk : k < last) (hgoal : d.endForm ≠ q.goal)
    (htried : s.effort.stateLimitHit = false → q.atBound d.length = false →
      q.grammar.leftmostSteps d.endForm = tried) {hit : Bool}
    (hhit : hit = true ↔ s.effort.depthLimitHit = true ∨
      d.endForm.isTerminal = false ∧ q.atBound d.length = true) :
    Scanning q last (k + 1) [] { s with effort.depthLimitHit := hit } where
  __ := hs
  first_le := Nat.le_succ_of_le hs.first_le
  le_last := hk
  added := by
    intro i e he hi
    obtain ⟨j, f, t, hf, rfl, hj, hlast, h⟩ := hs.added i e he hi
    exact ⟨j, f, t, hf, rfl, hj, hlast, .inl (by omega)⟩
  looked := by
    intro i e he hi
    rcases Nat.lt_succ_iff_lt_or_eq.1 hi with hi | rfl
    · exact hs.looked i e he hi
    · obtain rfl := Option.some.inj (hd.symm.trans he)
      exact hgoal
  closed := by
    intro hroom i e t he hi ht hpasses
    rcases hi with ⟨hi, hbound⟩ | ⟨-, hi⟩
    · rcases Nat.lt_succ_iff_lt_or_eq.1 hi with hi | rfl
      · exact hs.closed hroom i e t he (.inl ⟨hi, hbound⟩) ht hpasses
      · obtain rfl := Option.some.inj (hd.symm.trans he)
        have htried' := ht
        rw [htried hroom hbound] at htried'
        exact hs.closed hroom i d t hd (.inr ⟨rfl, htried'⟩) ht hpasses
    · cases hi
  depthLimit := by
    refine hhit.trans ?_
    rw [hs.depthLimit]
    constructor
    · rintro (⟨i, e, he, hi, hrest⟩ | hrest)
      · exact ⟨i, e, he, by omega, hrest⟩
      · exact ⟨k, d, hd, Nat.lt_succ_self k, hrest⟩
    · rintro ⟨i, e, he, hi, hrest⟩
      rcases Nat.lt_succ_iff_lt_or_eq.1 hi with hi | rfl
      · exact .inl ⟨i, e, he, hi, hrest⟩
      · obtain rfl := Option.some.inj (hd.symm.trans he)
        exact .inr hrest

/-- **Rewriting a node keeps the invariant.** -/
theorem Scanning.expand (hs : Scanning q last k [] s) (hq : q.Lawful)
    (hd : (s.runs q)[k]? = some d) (hk : k < last) (hterm : d.endForm.isTerminal = false) :
    Scanning q last (k + 1) [] (s.expand q k d.endForm) ∧
      s.runs q <+: (s.expand q k d.endForm).runs q := by
  have hdepth := hs.level k d hd hs.first_le hk
  have hgoal : d.endForm ≠ q.goal := by
    intro h
    rw [h, Query.isTerminal_goal] at hterm
    cases hterm
  unfold SearchState.expand
  split
  · next hbound =>
    refine ⟨hs.next hd hk hgoal ?_ ?_, List.prefix_rfl⟩
    · intro _ h
      rw [hdepth, hbound] at h
      cases h
    · rw [hdepth]
      simp [hterm, hbound]
  · next hbound =>
    rw [Bool.not_eq_true] at hbound
    have hnext : ∀ s' : SearchState, s'.effort.depthLimitHit = true ↔
        s'.effort.depthLimitHit = true ∨
          d.endForm.isTerminal = false ∧ q.atBound d.length = true := by
      intro s'
      simp [hdepth, hbound]
    split
    · next hlimit =>
      refine ⟨hs.next hd hk hgoal ?_ (hnext s), List.prefix_rfl⟩
      intro h _
      rw [hlimit] at h
      cases h
    · obtain ⟨hs', hruns⟩ := hs.foldl_offer hq hd hk hbound rfl
      exact ⟨hs'.next (getElem?_of_isPrefix hruns hd) hk hgoal (fun _ _ => rfl) (hnext _), hruns⟩

/-! ## Looking at a level -/

@[simp] theorem expand_depth (q : Query) (index : Nat) (form : Form) (s : SearchState) :
    (s.expand q index form).depth = s.depth := by
  have hfold : ∀ (steps : List Step) (s : SearchState),
      (steps.foldl (SearchState.offer q index) s).depth = s.depth := by
    intro steps
    induction steps with
    | nil => exact fun s => rfl
    | cons step rest ih => exact fun s => (ih _).trans (s.offer_depth q index step)
  unfold SearchState.expand
  split
  · rfl
  · split
    · rfl
    · exact hfold _ s

@[simp] theorem scan_depth (q : Query) (nodes : List (Node × Nat)) (s : SearchState) :
    (s.scan q nodes).2.depth = s.depth := by
  induction nodes generalizing s with
  | nil => rfl
  | cons entry rest ih =>
    obtain ⟨node, index⟩ := entry
    simp only [SearchState.scan]
    split
    · split
      · rfl
      · rw [ih]
    · rw [ih, expand_depth]

/-- The entries are the nodes from `k` up to `last`, with the forms that the runs lead to. -/
def Upcoming (ds : List Derivation) (last : Nat) : Nat → List (Node × Nat) → Prop
  | k, [] => k = last
  | k, (node, index) :: rest =>
    index = k ∧ k < last ∧ (∃ d, ds[k]? = some d ∧ d.endForm = node.form) ∧
      Upcoming ds last (k + 1) rest

theorem Upcoming.mono {ds es : List Derivation} (h : ds <+: es) {nodes : List (Node × Nat)}
    (hup : Upcoming ds last k nodes) : Upcoming es last k nodes := by
  induction nodes generalizing k with
  | nil => exact hup
  | cons entry rest ih =>
    obtain ⟨node, index⟩ := entry
    obtain ⟨hindex, hk, ⟨d, hd, hform⟩, hrest⟩ := hup
    exact ⟨hindex, hk, ⟨d, getElem?_of_isPrefix h hd, hform⟩, ih hrest⟩

theorem nodesFrom_eq (a : Arena) (k : Nat) : a.nodesFrom k = (a.nodes.toList.drop k).zipIdx k := by
  rw [Arena.nodesFrom, Array.toList_extract, List.extract_eq_take_drop, List.take_of_length_le]
  simp

theorem upcoming_nodesFrom (hlinked : s.arena.Linked q.grammar) (hk : k ≤ s.arena.size) :
    Upcoming (s.runs q) s.arena.size k (s.arena.nodesFrom k) := by
  rw [nodesFrom_eq]
  induction hn : s.arena.size - k generalizing k with
  | zero =>
    rw [List.drop_eq_nil_of_le (by rw [Array.length_toList]; exact Nat.sub_eq_zero_iff_le.1 hn)]
    exact Nat.le_antisymm hk (Nat.sub_eq_zero_iff_le.1 hn)
  | succ n ih =>
    have hlt : k < s.arena.nodes.size := show k < s.arena.size by omega
    have hnode := Array.getElem?_eq_getElem hlt
    rw [List.drop_eq_getElem_cons (by rw [Array.length_toList]; exact hlt), List.zipIdx_cons,
      Array.getElem_toList]
    refine ⟨rfl, hlt, ⟨_, Arena.getElem?_derivations hlt, hlinked.endForm_derivation hnode⟩, ?_⟩
    exact ih (by omega) (by omega)

/-- **Looking at the rest of a level** either comes to its end or to the wanted form. -/
theorem Scanning.scan (hs : Scanning q last k [] s) (hq : q.Lawful) {nodes : List (Node × Nat)}
    (hup : Upcoming (s.runs q) last k nodes) :
    ((s.scan q nodes).1 = none ∧ Scanning q last last [] (s.scan q nodes).2) ∨
      ∃ (index : Nat) (d : Derivation), (s.scan q nodes).1 = some index ∧ index < last ∧
        Scanning q last index [] (s.scan q nodes).2 ∧
          ((s.scan q nodes).2.runs q)[index]? = some d ∧ d.endForm = q.goal := by
  induction nodes generalizing k s with
  | nil =>
    obtain rfl : k = last := hup
    exact .inl ⟨rfl, hs⟩
  | cons entry rest ih =>
    obtain ⟨node, index⟩ := entry
    obtain ⟨rfl, hk, ⟨d, hd, hform⟩, hrest⟩ := hup
    have hs' : Scanning q last index []
        { s with effort.explored := s.effort.explored + 1 } := { hs with }
    simp only [SearchState.scan]
    rw [← hform]
    split
    · next hterm =>
      split
      · next hgoal => exact .inr ⟨index, d, rfl, hk, hs', hd, Query.isGoal_iff.1 hgoal⟩
      · next hgoal =>
        rw [Query.isGoal_iff] at hgoal
        refine ih (hs'.next hd hk hgoal ?_ ?_) hrest
        · intro _ _
          exact Grammar.leftmostSteps_of_isTerminal hterm
        · simp [hterm]
    · next hterm =>
      rw [Bool.not_eq_true] at hterm
      obtain ⟨hs'', hruns⟩ := hs'.expand hq hd hk hterm
      exact ih hs'' (hrest.mono hruns)

/-- A search before a level. -/
def Level (q : Query) (s : SearchState) : Prop := Scanning q s.arena.size s.first [] s

theorem level_initial (q : Query) : Level q (initial q) := by
  have hruns : (initial q).runs q = [⟨q.grammar.start, []⟩] :=
    Arena.derivations_ofStart q.grammar
  have hroot : ∀ (i : Nat) (d : Derivation), ((initial q).runs q)[i]? = some d →
      i = 0 ∧ d = ⟨q.grammar.start, []⟩ := by
    intro i d hd
    rw [hruns] at hd
    obtain ⟨hi, rfl⟩ := List.getElem?_eq_some_iff.1 hd
    obtain rfl : i = 0 := by simpa using hi
    exact ⟨rfl, rfl⟩
  exact
    { linked := Arena.linked_ofStart q.grammar
      catalogue := by rw [hruns]; exact .singleton q
      first_le := Nat.le_refl 0
      le_last := Nat.zero_le _
      last_le := Nat.le_refl _
      size_le := Nat.le_max_left 1 _
      earlier := fun i d _ hi => absurd hi (Nat.not_lt_zero i)
      level := by
        intro i d hd _ _
        rw [(hroot i d hd).2]
        rfl
      added := by
        intro i d hd hi
        rw [(hroot i d hd).1] at hi
        exact absurd hi (Nat.not_le_of_lt Nat.zero_lt_one)
      looked := fun i d _ hi => absurd hi (Nat.not_lt_zero i)
      closed := by
        rintro - i d step - (⟨hi, -⟩ | ⟨-, hi⟩)
        · exact absurd hi (Nat.not_lt_zero i)
        · cases hi
      full := by
        intro h
        cases h
      depthLimit := by
        constructor
        · intro h
          cases h
        · rintro ⟨i, d, -, hi, -⟩
          exact absurd hi (Nat.not_lt_zero i)
      stepBound := rfl }

theorem Scanning.nextLevel (hs : Scanning q last last [] s) :
    Level q { s with depth := s.depth + 1, first := last } where
  __ := hs
  first_le := Nat.le_refl last
  le_last := hs.last_le
  last_le := Nat.le_refl _
  earlier := by
    intro i d hd hi
    show d.length < s.depth + 1
    rcases Nat.lt_or_ge i s.first with h | h
    · have := hs.earlier i d hd h
      omega
    · have := hs.level i d hd h hi
      omega
  level := by
    intro i d hd hi _
    obtain ⟨j, e, step, he, rfl, hj, hlast, -⟩ := hs.added i d hd hi
    rw [Derivation.length_extend, hs.level j e he hj hlast]
  added := fun i d hd hi => absurd (lt_size_of_getElem? hd) (Nat.not_lt.2 hi)

/-- **Looking at a whole level** leads to the next one, or to the wanted form on it. -/
theorem Level.advance (hs : Level q s) (hq : q.Lawful) :
    ((s.advance q).1 = none ∧ Level q (s.advance q).2 ∧
        (s.advance q).2.first = s.arena.size ∧ (s.advance q).2.depth = s.depth + 1) ∨
      ∃ (index : Nat) (d : Derivation), (s.advance q).1 = some index ∧
        Stocked q (s.advance q).2 ∧
          ((s.advance q).2.runs q)[index]? = some d ∧ d.endForm = q.goal ∧
            d.length = s.depth := by
  have hs' : Scanning q s.arena.size s.first [] { s with effort.deepest := s.depth } := { hs with }
  have hdepth := scan_depth q (s.arena.nodesFrom s.first) { s with effort.deepest := s.depth }
  rcases hs'.scan hq (upcoming_nodesFrom hs.linked hs.le_last) with
    ⟨hnone, hend⟩ | ⟨index, d, hsome, hindex, hend, hd, hgoal⟩
  · have hlevel := hend.nextLevel
    rw [hdepth] at hlevel
    exact .inl ⟨hnone, hlevel, rfl, rfl⟩
  · refine .inr ⟨index, d, hsome, { hend.toStocked with }, hd, hgoal, ?_⟩
    rw [hend.level index d hd hend.first_le hindex, hdepth]

/-- The states before the levels of a search. -/
inductive Reachable (q : Query) : SearchState → Prop where
  | initial : Reachable q (initial q)
  | advance {s s' : SearchState} :
      Reachable q s → s.isDone = false → s.advance q = (none, s') → Reachable q s'

/-- **The invariant holds before every level.** -/
theorem Reachable.level (hq : q.Lawful) (h : Reachable q s) : Level q s := by
  induction h with
  | initial => exact level_initial q
  | @advance s s' _ _ hadvance ih =>
    rcases ih.advance hq with ⟨-, hlevel, -⟩ | ⟨index, d, hsome, -⟩
    · rwa [hadvance] at hlevel
    · rw [hadvance] at hsome
      cases hsome

/-- The states that a search comes to: before each level, and after the last one. -/
def Visited (q : Query) (s : SearchState) : Prop :=
  ∃ s', Reachable q s' ∧ (s = s' ∨ s = (s'.advance q).2)

theorem Visited.stocked (hq : q.Lawful) (h : Visited q s) : Stocked q s := by
  obtain ⟨s', hs', rfl | rfl⟩ := h
  · exact (hs'.level hq).toStocked
  · rcases (hs'.level hq).advance hq with ⟨-, hlevel, -⟩ | ⟨index, d, -, hstocked, -⟩
    · exact hlevel.toStocked
    · exact hstocked

/-! ## Levels at the step bound -/

theorem arena_scan_of_atBound (h : q.atBound s.depth = true) (nodes : List (Node × Nat)) :
    (s.scan q nodes).2.arena = s.arena := by
  induction nodes generalizing s with
  | nil => rfl
  | cons entry rest ih =>
    obtain ⟨node, index⟩ := entry
    let looked : SearchState := { s with effort.explored := s.effort.explored + 1 }
    have hexpand : looked.expand q index node.form =
        { looked with effort.depthLimitHit := true } := if_pos h
    simp only [SearchState.scan]
    split
    · split
      · rfl
      · exact ih (s := looked) h
    · rw [hexpand]
      exact ih (s := { looked with effort.depthLimitHit := true }) h

/-- The level after the step bound has no nodes. -/
theorem isDone_advance_of_atBound (h : q.atBound s.depth = true) :
    (s.advance q).2.isDone = true := by
  have harena : (s.advance q).2.arena = s.arena :=
    arena_scan_of_atBound (s := { s with effort.deepest := s.depth }) h _
  have hfirst : (s.advance q).2.first = s.arena.size := rfl
  simp [isDone, harena, hfirst]

/-- **No level that has nodes is deeper than the step bound.** -/
theorem Reachable.depth_le (h : Reachable q s) (hdone : s.isDone = false) :
    ∀ b ∈ q.stepBound, s.depth ≤ b := by
  intro b hb
  cases h with
  | initial => exact Nat.zero_le b
  | @advance s₀ _ _ _ hadvance =>
    have hdepth : s.depth = s₀.depth + 1 := by
      rw [show s = (s₀.advance q).2 by rw [hadvance]]
      rfl
    by_contra hlt
    have hbound : q.atBound s₀.depth = true := by
      rw [Query.atBound, Option.mem_def.1 hb]
      simp only [decide_eq_true_eq]
      omega
    have hempty := isDone_advance_of_atBound hbound
    rw [hadvance, hdone] at hempty
    cases hempty

theorem advance_of_isDone (h : s.isDone = true) : (s.advance q).1 = none := by
  have hend : s.arena.size ≤ s.first := by simpa [isDone] using h
  have hsize : s.arena.nodes.toList.length ≤ s.first := by
    rw [Array.length_toList]
    exact hend
  have hnodes : s.arena.nodesFrom s.first = [] := by
    rw [nodesFrom_eq, List.drop_eq_nil_of_le hsize]
    rfl
  simp only [advance, hnodes, SearchState.scan]

/-- Only a level that has nodes can hold the wanted form. -/
theorem not_isDone_of_advance {index : Nat} {s' : SearchState}
    (h : s.advance q = (some index, s')) : s.isDone = false := by
  by_contra hdone
  have hnone := advance_of_isDone (q := q) (Bool.not_eq_false _ ▸ hdone)
  rw [h] at hnone
  cases hnone

end SearchState

/-! ## Runs of the search -/

namespace SearchRun

variable {q : Query} {s : SearchState}

/-- How a search that is not given up ends: with a level that has no nodes, or at the wanted form
on a level that has. The levels are fewer than the storable forms, so none is left out. -/
theorem levels_cases (hq : q.Lawful) (hs : SearchState.Reachable q s) {fuel : Nat}
    (hfuel : q.maxStates + 2 ≤ fuel + s.first) :
    (∃ s', SearchState.Reachable q s' ∧ s'.isDone = true ∧
        (levels q (fun _ => false) fuel s).finding = s'.finding q none) ∨
      ∃ s', SearchState.Reachable q s' ∧ ∃ (index : Nat) (s'' : SearchState),
        s'.advance q = (some index, s'') ∧ (levels q (fun _ => false) fuel s).finding =
          s''.finding q (some (s''.arena.derivation q.grammar.start index)) := by
  induction fuel generalizing s with
  | zero =>
    -- The levels before this one have stored more forms than there is room for.
    have hlevel := hs.level hq
    have hfirst := hlevel.le_last
    have hsize := hlevel.size_le
    omega
  | succ fuel ih =>
    simp only [levels]
    split
    · next hdone => exact .inl ⟨s, hs, hdone, rfl⟩
    · next hdone =>
      rw [Bool.not_eq_true] at hdone
      rw [if_neg Bool.false_ne_true]
      split
      · next index s' hadvance => exact .inr ⟨s, hs, index, s', hadvance, rfl⟩
      · next s' hadvance =>
        have hfirst : s'.first = s.arena.size := by
          rcases (hs.level hq).advance hq with ⟨-, -, hfirst, -⟩ | ⟨index, d, hsome, -⟩
          · rwa [hadvance] at hfirst
          · rw [hadvance] at hsome
            cases hsome
        have hgrows : s.first < s.arena.size := by simpa [SearchState.isDone] using hdone
        exact ih (hs.advance hdone hadvance) (by omega)

end SearchRun

theorem exists_visited_of_search (g : Grammar) (cls : GrammarClass) (input : String)
    (limits : SearchLimits) :
    ∃ s, SearchState.Visited (.new g cls input limits) s ∧
      (search g cls input limits).effort = s.effort := by
  rcases SearchRun.levels_cases (Query.lawful_new g cls input limits) .initial (Nat.le_refl _) with
    ⟨s, hs, -, hfinding⟩ | ⟨s, hs, index, s', hadvance, hfinding⟩
  · refine ⟨s, ⟨s, hs, .inl rfl⟩, ?_⟩
    rw [search, SearchRun.ofQuery, hfinding]
    rfl
  · refine ⟨s', ⟨s, hs, .inr (by rw [hadvance])⟩, ?_⟩
    rw [search, SearchRun.ofQuery, hfinding]
    rfl

end PhraseStructure
