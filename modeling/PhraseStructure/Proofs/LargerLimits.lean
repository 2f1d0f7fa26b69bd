import PhraseStructure.Proofs.Completeness

/-!
# Searches with larger limits

Two searches for one string are compared, the second with limits that are no smaller. They run in
step until the first one meets a limit. From then on it stores nothing, so its forms are the first
of those that the second one stores, in the same order, and what it still looks at is what the
second one looks at as well.

* `Trails.expand`, `Trails.scan`: the comparison is kept for a node, and for the rest of a level.
* `search_settled`: an answer that no limit has spoilt stays the same under larger limits.
-/

namespace PhraseStructure

/-- The second query asks for the same string with limits that are no smaller. -/
structure Query.Widens (q q' : Query) : Prop where
  grammar : q'.grammar = q.grammar
  sieve : q'.sieve = q.sieve
  maxStates : q.maxStates ≤ q'.maxStates
  atBound : ∀ depth, q'.atBound depth = true → q.atBound depth = true

namespace SearchState

/-- Two searches look at the same place, and the second one has stored at least as much. -/
structure Ahead (s t : SearchState) : Prop where
  depth : t.depth = s.depth
  first : t.first = s.first
  explored : t.effort.explored = s.effort.explored
  deepest : t.effort.deepest = s.effort.deepest
  nodes : s.arena.nodes.toList <+: t.arena.nodes.toList

/-- Two searches have stored the same forms, and both have room. -/
structure InStep (s t : SearchState) : Prop where
  arena : t.arena = s.arena
  room : s.effort.stateLimitHit = false
  room' : t.effort.stateLimitHit = false

/-- A limit that was hit keeps a search from storing anything from now on. -/
def Stuck (q : Query) (s : SearchState) : Prop :=
  s.effort.stateLimitHit = true ∨ s.effort.depthLimitHit = true ∧ q.atBound s.depth = true

/-- The search `t` is ahead of `s`, and `s` has only fallen behind if a limit holds it. -/
structure Trails (q : Query) (s t : SearchState) : Prop extends Ahead s t where
  inStep_or_stuck : InStep s t ∨ Stuck q s

variable {q q' : Query} {s t u : SearchState}

/-! ## One search alone -/

theorem Ahead.refl (s : SearchState) : Ahead s s := ⟨rfl, rfl, rfl, rfl, List.prefix_rfl⟩

theorem Ahead.trans (h : Ahead s t) (h' : Ahead t u) : Ahead s u where
  depth := h'.depth.trans h.depth
  first := h'.first.trans h.first
  explored := h'.explored.trans h.explored
  deepest := h'.deepest.trans h.deepest
  nodes := h.nodes.trans h'.nodes

theorem ahead_offer (q : Query) (index : Nat) (s : SearchState) (step : Step) :
    Ahead s (s.offer q index step) := by
  unfold offer
  split
  · exact .refl s
  · split
    · exact ⟨rfl, rfl, rfl, rfl, List.prefix_rfl⟩
    · refine ⟨rfl, rfl, rfl, rfl, ?_⟩
      simp only [Arena.push, Array.toList_push]
      exact List.prefix_append _ _

theorem ahead_foldl_offer (q : Query) (index : Nat) (steps : List Step) (s : SearchState) :
    Ahead s (steps.foldl (offer q index) s) := by
  induction steps generalizing s with
  | nil => exact .refl s
  | cons step rest ih => exact (ahead_offer q index s step).trans (ih _)

/-- Rewriting a node leaves the place where a search looks, and only adds forms. -/
theorem ahead_expand (q : Query) (index : Nat) (form : Form) (s : SearchState) :
    Ahead s (s.expand q index form) := by
  unfold SearchState.expand
  split
  · exact ⟨rfl, rfl, rfl, rfl, List.prefix_rfl⟩
  · split
    · exact .refl s
    · exact ahead_foldl_offer q index _ s

theorem Stuck.expand (h : Stuck q s) (index : Nat) (form : Form) :
    Stuck q (s.expand q index form) ∧ (s.expand q index form).arena = s.arena := by
  unfold SearchState.expand
  split
  · next hbound => exact ⟨.inr ⟨rfl, hbound⟩, rfl⟩
  · next hbound =>
    have hlimit : s.effort.stateLimitHit = true := by
      rcases h with h | ⟨-, h⟩
      · exact h
      · exact absurd h hbound
    rw [if_pos hlimit]
    exact ⟨.inl hlimit, rfl⟩

/-- A search that is stuck stores nothing on its level. -/
theorem Stuck.scan (h : Stuck q s) (nodes : List (Node × Nat)) :
    Stuck q (s.scan q nodes).2 ∧ (s.scan q nodes).2.arena = s.arena := by
  induction nodes generalizing s with
  | nil => exact ⟨h, rfl⟩
  | cons entry rest ih =>
    obtain ⟨node, index⟩ := entry
    have hlooked : Stuck q { s with effort.explored := s.effort.explored + 1 } := h
    simp only [SearchState.scan]
    split
    · split
      · exact ⟨hlooked, rfl⟩
      · exact ih hlooked
    · obtain ⟨hstuck, harena⟩ := hlooked.expand index node.form
      obtain ⟨hstuck', harena'⟩ := ih hstuck
      exact ⟨hstuck', harena'.trans harena⟩

/-- A search that is stuck on a level is stuck on the deeper ones. -/
theorem Stuck.deeper (h : Stuck q s) {depth first : Nat} (hdepth : s.depth ≤ depth) :
    Stuck q { s with depth, first } := by
  rcases h with hlimit | ⟨hlimit, hbound⟩
  · exact .inl hlimit
  · refine .inr ⟨hlimit, ?_⟩
    by_contra hnext
    rw [Bool.not_eq_true] at hnext
    rw [Query.atBound_mono hdepth hnext] at hbound
    cases hbound

/-- So the level after it has no nodes. -/
theorem Stuck.advance (h : Stuck q s) :
    Stuck q (s.advance q).2 ∧ (s.advance q).2.isDone = true := by
  have hlooked : Stuck q { s with effort.deepest := s.depth } := h
  obtain ⟨hstuck, harena⟩ := hlooked.scan (s.arena.nodesFrom s.first)
  have hdepth := scan_depth q (s.arena.nodesFrom s.first) { s with effort.deepest := s.depth }
  constructor
  · apply hstuck.deeper
    rw [hdepth]
    exact Nat.le_succ s.depth
  · have hsize : (s.advance q).2.arena.size = s.arena.size := by
      show (SearchState.scan q _ _).2.arena.size = s.arena.size
      rw [harena]
    have hfirst : (s.advance q).2.first = s.arena.size := rfl
    simp [isDone, hsize, hfirst]

theorem Stuck.truncated (h : Stuck q s) : (s.finding q none).truncated = true := by
  rw [Finding.truncated_iff]
  refine ⟨rfl, ?_⟩
  rcases h with h | ⟨h, -⟩
  · exact .inr h
  · exact .inl h

/-! ## Offering a form to two searches -/

/-- The form is hopeless or stored already. -/
def Declines (q : Query) (s : SearchState) (step : Step) : Prop :=
  (!q.sieve.passes step.form || s.arena.seen.contains step.form) = true

theorem offer_of_stateLimitHit (h : s.effort.stateLimitHit = true) (index : Nat) (step : Step) :
    s.offer q index step = s := by
  simp [offer, h]

theorem offer_of_declines {step : Step} (h : Declines q s step) (index : Nat) :
    s.offer q index step = s := by
  rw [Declines] at h
  simp only [offer, Bool.or_assoc, h, Bool.or_true, if_true]

theorem offer_of_full {step : Step} (hroom : s.effort.stateLimitHit = false)
    (hnew : ¬ Declines q s step) (hfull : q.maxStates ≤ s.arena.size) (index : Nat) :
    s.offer q index step = { s with effort.stateLimitHit := true } := by
  rw [Declines] at hnew
  simp only [offer, hroom, Bool.false_or, hnew, hfull, if_true, Bool.false_eq_true, if_false]

theorem offer_of_not_full {step : Step} (hroom : s.effort.stateLimitHit = false)
    (hnew : ¬ Declines q s step) (hfull : ¬ q.maxStates ≤ s.arena.size) (index : Nat) :
    s.offer q index step = { s with arena := s.arena.push index step } := by
  rw [Declines] at hnew
  simp only [offer, hroom, Bool.false_or, hnew, hfull, Bool.false_eq_true, if_false]

/-- A form that is offered to both searches is treated alike, as long as the first one has room. -/
theorem Ahead.offer (h : Ahead s t) (hw : q.Widens q')
    (hstep : InStep s t ∨ s.effort.stateLimitHit = true) (index : Nat) (step : Step) :
    Ahead (s.offer q index step) (t.offer q' index step) ∧
      (InStep (s.offer q index step) (t.offer q' index step) ∨
        (s.offer q index step).effort.stateLimitHit = true) := by
  have hahead := h.trans (ahead_offer q' index t step)
  rcases hstep with hstep | hlimit
  · have hdeclines : Declines q' t step ↔ Declines q s step := by
      rw [Declines, Declines, hw.sieve, hstep.arena]
    by_cases hskip : Declines q s step
    · rw [offer_of_declines hskip, offer_of_declines (hdeclines.2 hskip)]
      exact ⟨h, .inl hstep⟩
    have hskip' : ¬ Declines q' t step := fun hd => hskip (hdeclines.1 hd)
    by_cases hfull : q.maxStates ≤ s.arena.size
    · -- The first search is full, whatever the second one does.
      rw [offer_of_full hstep.room hskip hfull]
      exact ⟨{ hahead with }, .inr rfl⟩
    · have hfull' : ¬ q'.maxStates ≤ t.arena.size := by
        have hstates := hw.maxStates
        rw [hstep.arena]
        omega
      rw [offer_of_not_full hstep.room hskip hfull, offer_of_not_full hstep.room' hskip' hfull']
      have harena : t.arena.push index step = s.arena.push index step := by rw [hstep.arena]
      refine ⟨{ h with nodes := ?_ }, .inl ⟨harena, hstep.room, hstep.room'⟩⟩
      rw [harena]
  · rw [offer_of_stateLimitHit hlimit]
    exact ⟨hahead, .inr hlimit⟩

theorem Ahead.foldl_offer (h : Ahead s t) (hw : q.Widens q')
    (hstep : InStep s t ∨ s.effort.stateLimitHit = true) (index : Nat) (steps : List Step) :
    Ahead (steps.foldl (SearchState.offer q index) s)
        (steps.foldl (SearchState.offer q' index) t) ∧
      (InStep (steps.foldl (SearchState.offer q index) s)
          (steps.foldl (SearchState.offer q' index) t) ∨
        (steps.foldl (SearchState.offer q index) s).effort.stateLimitHit = true) := by
  induction steps generalizing s t with
  | nil => exact ⟨h, hstep⟩
  | cons step rest ih =>
    obtain ⟨hahead, hstep'⟩ := h.offer hw hstep index step
    exact ih hahead hstep'

/-! ## Looking at a level with two searches -/

/-- **Rewriting a node** keeps the second search ahead. -/
theorem Trails.expand (h : Trails q s t) (hw : q.Widens q') (index : Nat) (form : Form) :
    Trails q (s.expand q index form) (t.expand q' index form) := by
  by_cases hstuck : Stuck q s
  · -- The first search stands still, and the second one can only add forms.
    obtain ⟨hstuck', harena⟩ := hstuck.expand index form
    have hs := ahead_expand q index form s
    have ht := ahead_expand q' index form t
    refine { depth := ?_, first := ?_, explored := ?_, deepest := ?_, nodes := ?_,
             inStep_or_stuck := .inr hstuck' }
    · rw [ht.depth, h.depth, hs.depth]
    · rw [ht.first, h.first, hs.first]
    · rw [ht.explored, h.explored, hs.explored]
    · rw [ht.deepest, h.deepest, hs.deepest]
    · rw [harena]
      exact h.nodes.trans ht.nodes
  have hstep : InStep s t := h.inStep_or_stuck.resolve_right hstuck
  by_cases hbound : q.atBound s.depth = true
  · -- The bound of the first search is met now.
    have hs : s.expand q index form = { s with effort.depthLimitHit := true } := by
      simp only [SearchState.expand, hbound, if_true]
    rw [hs]
    have hahead := h.toAhead.trans (ahead_expand q' index form t)
    exact { hahead with inStep_or_stuck := .inr (.inr ⟨rfl, hbound⟩) }
  · have hbound' : ¬ q'.atBound t.depth = true := by
      intro hb
      rw [h.depth] at hb
      exact hbound (hw.atBound _ hb)
    have hs : s.expand q index form =
        (q.grammar.leftmostSteps form).foldl (SearchState.offer q index) s := by
      simp only [SearchState.expand, hbound, hstep.room, Bool.false_eq_true, if_false]
    have ht : t.expand q' index form =
        (q.grammar.leftmostSteps form).foldl (SearchState.offer q' index) t := by
      simp only [SearchState.expand, hbound', hstep.room', hw.grammar, Bool.false_eq_true,
        if_false]
    obtain ⟨hahead, hstep'⟩ :=
      h.toAhead.foldl_offer hw (.inl hstep) index (q.grammar.leftmostSteps form)
    rw [hs, ht]
    exact { hahead with inStep_or_stuck := hstep'.imp_right .inl }

theorem Trails.look (h : Trails q s t) :
    Trails q { s with effort.explored := s.effort.explored + 1 }
      { t with effort.explored := t.effort.explored + 1 } where
  __ := h
  explored := by rw [h.explored]
  inStep_or_stuck := h.inStep_or_stuck.imp (fun hstep => { hstep with }) id

/-- **Looking at nodes**: what the first search finds among them the second one finds as well, also
if more nodes follow; and if the first one finds nothing among the same nodes, neither does the
second. -/
theorem Trails.scan (h : Trails q s t) (hw : q.Widens q') (nodes more : List (Node × Nat)) :
    (∀ found, (s.scan q nodes).1 = some found →
        (t.scan q' (nodes ++ more)).1 = some found ∧
          Ahead (s.scan q nodes).2 (t.scan q' (nodes ++ more)).2) ∧
      ((s.scan q nodes).1 = none →
        (t.scan q' nodes).1 = none ∧ Trails q (s.scan q nodes).2 (t.scan q' nodes).2) := by
  induction nodes generalizing s t with
  | nil =>
    refine ⟨?_, fun _ => ⟨rfl, h⟩⟩
    intro found hfound
    cases hfound
  | cons entry rest ih =>
    obtain ⟨node, index⟩ := entry
    have hgoal : q'.isGoal node.form = q.isGoal node.form := by
      simp only [Query.isGoal, hw.sieve]
    simp only [List.cons_append, SearchState.scan, hgoal]
    split
    · split
      · refine ⟨?_, fun hnone => by cases hnone⟩
        intro found hfound
        exact ⟨hfound, h.look.toAhead⟩
      · exact ih h.look
    · exact ih (h.look.expand hw index node.form)

/-- The nodes of a level of the first search open the level of the second one. -/
theorem Trails.nodesFrom (h : Trails q s t) :
    ∃ more, t.arena.nodesFrom t.first = s.arena.nodesFrom s.first ++ more := by
  obtain ⟨later, hlater⟩ := h.nodes
  rw [nodesFrom_eq, nodesFrom_eq, ← hlater, h.first]
  by_cases hle : s.first ≤ s.arena.nodes.toList.length
  · rw [List.drop_append_of_le_length hle, List.zipIdx_append]
    exact ⟨_, rfl⟩
  · rw [List.drop_eq_nil_of_le (by omega : s.arena.nodes.toList.length ≤ s.first)]
    exact ⟨_, rfl⟩

theorem Trails.start (h : Trails q s t) :
    Trails q { s with effort.deepest := s.depth } { t with effort.deepest := t.depth } where
  __ := h
  deepest := h.depth
  inStep_or_stuck := h.inStep_or_stuck.imp (fun hstep => { hstep with }) id

/-- **A level** on which the first search finds the string is one for the second search too. -/
theorem Trails.advance_some (h : Trails q s t) (hw : q.Widens q') {found : Nat}
    (hfound : (s.advance q).1 = some found) :
    (t.advance q').1 = some found ∧
      (t.advance q').2.effort.explored = (s.advance q).2.effort.explored ∧
      (t.advance q').2.effort.deepest = (s.advance q).2.effort.deepest := by
  obtain ⟨more, hmore⟩ := h.nodesFrom
  obtain ⟨hfound', hahead⟩ :=
    (h.start.scan hw (s.arena.nodesFrom s.first) more).1 found hfound
  rw [← hmore] at hfound' hahead
  exact ⟨hfound', hahead.explored, hahead.deepest⟩

/-- As long as no limit holds the first search, neither finds the string before the other. -/
theorem Trails.advance_none (h : Trails q s t) (hw : q.Widens q') (hfree : ¬ Stuck q s)
    (hnone : (s.advance q).1 = none) :
    (t.advance q').1 = none ∧ Trails q (s.advance q).2 (t.advance q').2 := by
  have hstep : InStep s t := h.inStep_or_stuck.resolve_right hfree
  have hnodes : t.arena.nodesFrom t.first = s.arena.nodesFrom s.first := by
    rw [hstep.arena, h.first]
  have hscan := (h.start.scan hw (s.arena.nodesFrom s.first) []).2 hnone
  -- Only the list of nodes of the second search is rewritten, to the list that it really goes over.
  have hlevel : (SearchState.scan q' (t.arena.nodesFrom t.first)
        { t with effort.deepest := t.depth }).1 = none ∧
      Trails q (SearchState.scan q (s.arena.nodesFrom s.first)
          { s with effort.deepest := s.depth }).2
        (SearchState.scan q' (t.arena.nodesFrom t.first)
          { t with effort.deepest := t.depth }).2 := by
    rw [hnodes]
    exact hscan
  obtain ⟨hnone', htrails⟩ := hlevel
  have hdepth := scan_depth q (s.arena.nodesFrom s.first) { s with effort.deepest := s.depth }
  refine ⟨hnone', { htrails with depth := ?_, first := ?_, inStep_or_stuck := ?_ }⟩
  · show t.depth + 1 = s.depth + 1
    rw [h.depth]
  · show t.arena.size = s.arena.size
    rw [hstep.arena]
  · rcases htrails.inStep_or_stuck with hstep' | hstuck
    · exact .inl { hstep' with }
    · refine .inr (hstuck.deeper ?_)
      rw [hdepth]
      exact Nat.le_succ s.depth

theorem Trails.isDone_eq (h : Trails q s t) (hfree : ¬ Stuck q s) : t.isDone = s.isDone := by
  have hstep : InStep s t := h.inStep_or_stuck.resolve_right hfree
  simp only [isDone, hstep.arena, h.first]

theorem Trails.isDone_eq_false (h : Trails q s t) (hdone : s.isDone = false) :
    t.isDone = false := by
  have hsize : s.arena.size ≤ t.arena.size := by
    have hlen := h.nodes.length_le
    rwa [Array.length_toList, Array.length_toList] at hlen
  have hfirst := h.first
  simp only [isDone, decide_eq_false_iff_not] at hdone ⊢
  omega

theorem trails_initial (hw : q.Widens q') : Trails q (initial q) (initial q') := by
  have harena : (initial q').arena = (initial q).arena := by
    simp only [initial, hw.grammar]
  refine ⟨⟨rfl, rfl, rfl, rfl, ?_⟩, .inl ⟨harena, rfl, rfl⟩⟩
  rw [harena]

end SearchState

/-! ## Whole searches -/

/-- Two findings tell the same answer, reached in the same way. -/
structure Finding.Agrees (f f' : Finding) : Prop where
  belongs : f'.belongs = f.belongs
  explored : f'.effort.explored = f.effort.explored
  deepest : f'.effort.deepest = f.effort.deepest

namespace SearchRun

open SearchState

variable {q q' : Query} {s t : SearchState}

theorem levels_of_isDone (hdone : s.isDone = true) (fuel : Nat) :
    (levels q (fun _ => false) fuel s).finding = s.finding q none := by
  cases fuel with
  | zero => rfl
  | succ fuel => simp only [levels, hdone, if_true]

/-- A level has nodes, so the fuel lasts as long as there is room. -/
theorem le_fuel_of_advance {goal : Option Nat} {s' : SearchState} (hdone : s.isDone = false)
    (hadvance : s.advance q = (goal, s')) {bound fuel : Nat}
    (hfuel : bound ≤ fuel + 1 + s.first) : bound ≤ fuel + s'.first := by
  have hfirst : s'.first = s.arena.size := by
    have hend : (s.advance q).2.first = s.arena.size := rfl
    rwa [hadvance] at hend
  have hgrows : s.first < s.arena.size := by simpa [SearchState.isDone] using hdone
  omega

theorem pos_fuel (hq : q.Lawful) (hs : Reachable q s) {fuel : Nat}
    (hfuel : q.maxStates + 2 ≤ fuel + s.first) : 0 < fuel := by
  have hlevel := hs.level hq
  have hfirst := hlevel.le_last
  have hsize := hlevel.size_le
  omega

/-- **Run lemma.** A search that ends without being truncated agrees with every search that is
ahead of it under larger limits. -/
theorem levels_agrees (hq : q.Lawful) (hq' : q'.Lawful) (hw : q.Widens q') {fuel fuel' : Nat}
    (hs : Reachable q s) (ht : Reachable q' t) (h : Trails q s t)
    (hfuel : q.maxStates + 2 ≤ fuel + s.first) (hfuel' : q'.maxStates + 2 ≤ fuel' + t.first)
    (hsettled : (levels q (fun _ => false) fuel s).finding.truncated = false) :
    (levels q (fun _ => false) fuel s).finding.Agrees
      (levels q' (fun _ => false) fuel' t).finding := by
  induction fuel generalizing fuel' s t with
  | zero => exact absurd (pos_fuel hq hs hfuel) (Nat.lt_irrefl 0)
  | succ fuel ih =>
    have hpos := pos_fuel hq' ht hfuel'
    obtain ⟨fuel', rfl⟩ : ∃ n, fuel' = n + 1 := ⟨fuel' - 1, by omega⟩
    cases hdone : s.isDone with
    | true =>
      rw [levels_of_isDone hdone] at hsettled ⊢
      have hfree : ¬ Stuck q s := by
        intro hstuck
        rw [hstuck.truncated] at hsettled
        cases hsettled
      rw [levels_of_isDone (by rw [h.isDone_eq hfree]; exact hdone)]
      exact ⟨rfl, h.explored, h.deepest⟩
    | false =>
      have hdone' := h.isDone_eq_false hdone
      cases hadvance : s.advance q with
      | mk goal s' =>
        cases hadvance' : t.advance q' with
        | mk goal' t' =>
          cases goal with
          | some found =>
            have hfound : (s.advance q).1 = some found := by rw [hadvance]
            have hsome := h.advance_some hw hfound
            rw [hadvance, hadvance'] at hsome
            obtain ⟨rfl, hexplored, hdeepest⟩ := hsome
            simp only [levels, hdone, hdone', hadvance, hadvance', Bool.false_eq_true, if_false]
            exact ⟨rfl, hexplored, hdeepest⟩
          | none =>
            simp only [levels, hdone, hadvance, Bool.false_eq_true, if_false] at hsettled
            -- A search that is stuck has no nodes on its next level, and ends there truncated.
            have hfree : ¬ Stuck q s := by
              intro hstuck
              have hstuck' := hstuck.advance
              rw [hadvance] at hstuck'
              rw [levels_of_isDone hstuck'.2, hstuck'.1.truncated] at hsettled
              cases hsettled
            have hnone := h.advance_none hw hfree (by rw [hadvance])
            rw [hadvance, hadvance'] at hnone
            obtain ⟨rfl, htrails⟩ := hnone
            simp only [levels, hdone, hdone', hadvance, hadvance', Bool.false_eq_true, if_false]
            have hs' := hs.advance hdone hadvance
            have ht' := ht.advance hdone' hadvance'
            exact ih hs' ht' htrails (le_fuel_of_advance hdone hadvance hfuel)
              (le_fuel_of_advance hdone' hadvance' hfuel') hsettled

end SearchRun

theorem stepBound_search (g : Grammar) (cls : GrammarClass) (input : String)
    (limits : SearchLimits) :
    (search g cls input limits).effort.stepBound = (Query.new g cls input limits).stepBound := by
  obtain ⟨s, hs, heffort⟩ := exists_visited_of_search g cls input limits
  rw [heffort]
  exact (hs.stocked (Query.lawful_new g cls input limits)).stepBound

theorem Query.widens_new (g : Grammar) (cls : GrammarClass) (input : String)
    {limits limits' : SearchLimits} (hstates : limits.maxStates ≤ limits'.maxStates)
    (hbound : (Query.new g cls input limits').stepBound = none ∨
      ∃ b b', (Query.new g cls input limits).stepBound = some b ∧
        (Query.new g cls input limits').stepBound = some b' ∧ b ≤ b') :
    (Query.new g cls input limits).Widens (.new g cls input limits') where
  grammar := rfl
  sieve := rfl
  maxStates := hstates
  atBound := by
    intro depth hdepth
    unfold Query.atBound at hdepth ⊢
    rcases hbound with hnone | ⟨b, b', hb, hb', hle⟩
    · rw [hnone] at hdepth
      cases hdepth
    · rw [hb'] at hdepth
      rw [hb]
      simp only [decide_eq_true_eq] at hdepth ⊢
      omega

/-- Whatever the limits, only one derivation of a string is ever reported: the first of all. -/
theorem derivation_eq_of_search {g : Grammar} {cls cls' : GrammarClass} {input : String}
    {limits limits' : SearchLimits} {d d' : Derivation}
    (h : (search g cls input limits).derivation = some d)
    (h' : (search g cls' input limits').derivation = some d') : d' = d := by
  have hplain : ∀ {cls : GrammarClass} {limits : SearchLimits} {e : Derivation},
      (search g cls input limits).derivation = some e →
        ∀ n, e.length ≤ n → g.plainSearch input n = some e := by
    intro cls limits e he n hn
    obtain ⟨es, hcat, hmem, hform⟩ := exists_catalogue_of_search he
    refine Grammar.plainSearch_eq_some (hcat.run e hmem) hform ?_ hn
    intro f hf hfForm
    exact hcat.least e hmem f hf (hfForm.trans hform.symm)
  have hd := hplain h (max d.length d'.length) (Nat.le_max_left _ _)
  have hd' := hplain h' (max d.length d'.length) (Nat.le_max_right _ _)
  exact Option.some.inj (hd'.symm.trans hd)

theorem search_agrees {g : Grammar} {cls : GrammarClass} {input : String}
    {limits limits' : SearchLimits}
    (hw : (Query.new g cls input limits).Widens (.new g cls input limits'))
    (hsettled : (search g cls input limits).truncated = false) :
    (search g cls input limits).Agrees (search g cls input limits') :=
  SearchRun.levels_agrees (Query.lawful_new ..) (Query.lawful_new ..) hw .initial .initial
    (SearchState.trails_initial hw) (Nat.le_refl _) (Nat.le_refl _) hsettled

/-- **Larger limits do not change a settled answer.** If a search accepts the string, or rejects it
without having met a limit, then a search with more room and a step bound that is lifted or no
smaller gives the same derivation, or none either, after looking at the same number of forms and
levels. -/
theorem search_settled (g : Grammar) (cls : GrammarClass) (input : String)
    {limits limits' : SearchLimits} (hstates : limits.maxStates ≤ limits'.maxStates)
    (hbound : (search g cls input limits').effort.stepBound = none ∨
      ∃ b b', (search g cls input limits).effort.stepBound = some b ∧
        (search g cls input limits').effort.stepBound = some b' ∧ b ≤ b')
    (hsettled : (search g cls input limits).truncated = false) :
    (search g cls input limits').derivation = (search g cls input limits).derivation ∧
      (search g cls input limits').effort.explored = (search g cls input limits).effort.explored ∧
      (search g cls input limits').effort.deepest = (search g cls input limits).effort.deepest := by
  simp only [stepBound_search] at hbound
  have hagrees := search_agrees (Query.widens_new g cls input hstates hbound) hsettled
  refine ⟨?_, hagrees.explored, hagrees.deepest⟩
  have hbelongs := hagrees.belongs
  unfold Finding.belongs at hbelongs
  cases hd : (search g cls input limits).derivation with
  | none =>
    rw [hd] at hbelongs
    exact Option.not_isSome_iff_eq_none.1 (by rw [hbelongs]; exact Bool.false_ne_true)
  | some d =>
    rw [hd] at hbelongs
    obtain ⟨d', hd'⟩ := Option.isSome_iff_exists.1 hbelongs
    rw [hd', derivation_eq_of_search hd hd']

/-- The string `aa` is accepted with room for nine forms, which is too little for its level. With
more room and a larger bound nothing changes. -/
theorem search_settled_doubling :
    (search doubling .contextFree "aa" { maxStates := 9 }).effort.stateLimitHit = true ∧
    (search doubling .contextFree "aa" { maxStates := 9 }).truncated = false ∧
    (search doubling .contextFree "aa" ⟨3, some 20, 60, true⟩).effort.stepBound = some 26 ∧
    (search doubling .contextFree "aa" ⟨3, some 20, 60, true⟩).derivation =
      (search doubling .contextFree "aa" { maxStates := 9 }).derivation ∧
    (search doubling .contextFree "aa" ⟨3, some 20, 60, true⟩).effort.explored =
      (search doubling .contextFree "aa" { maxStates := 9 }).effort.explored ∧
    (search doubling .contextFree "aa" ⟨3, some 20, 60, true⟩).effort.deepest =
      (search doubling .contextFree "aa" { maxStates := 9 }).effort.deepest := by
  have hbound : (search doubling .contextFree "aa" { maxStates := 9 }).effort.stepBound =
      some 7 := by decide +kernel
  have hbound' : (search doubling .contextFree "aa" ⟨3, some 20, 60, true⟩).effort.stepBound =
      some 26 := by decide +kernel
  have hsettled : (search doubling .contextFree "aa" { maxStates := 9 }).truncated = false := by
    decide +kernel
  refine ⟨by decide +kernel, hsettled, hbound', ?_⟩
  exact search_settled doubling .contextFree "aa" (by decide)
    (.inr ⟨7, 26, hbound, hbound', by decide⟩) hsettled

end PhraseStructure
