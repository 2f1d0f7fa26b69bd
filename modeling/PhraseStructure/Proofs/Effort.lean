import PhraseStructure.Proofs.Exactness
import PhraseStructure.Proofs.LargerLimits

/-!
# What a search spends

A search goes from level to level until a level has no nodes or the wanted form is met. Nothing
counts these rounds: `Course` says what a search does, for as many levels as it takes, together
with the forms that it looks at. Every level but the last stores a form, and room is limited, so
there is always a course to an end. The forms looked at are the first of the stored forms, in the
order of storing, and stored forms differ; this is what the counters are compared with.

* `Course`: a search from its beginning to its end, and the forms looked at on the way.
* `SearchState.ahead_scan`: what looking at a level adds to the counters.
* `CourseTo.exact_advance`: the counters after any level that was looked at.
* `search_accounted`: every search ends, looks at no form twice, and its counters are exact.
-/

namespace PhraseStructure

/-! ## Stored forms -/

namespace Arena

variable {g : Grammar} {a b : Arena}

/-- The stored forms, in the order of storing. -/
def forms (a : Arena) : List Form := a.nodes.toList.map Node.form

@[simp] theorem length_forms (a : Arena) : a.forms.length = a.size := by
  simp [forms, size]

theorem Linked.map_endForm (h : a.Linked g) :
    (a.derivations g.start).map Derivation.endForm = a.forms := by
  refine List.ext_getElem? ?_
  intro i
  rcases Nat.lt_or_ge i a.size with hi | hi
  · have hnode : a.nodes[i]? = some a.nodes[i] := Array.getElem?_eq_getElem hi
    rw [List.getElem?_map, getElem?_derivations hi, Option.map_some, h.endForm_derivation hnode,
      forms, List.getElem?_map, Array.getElem?_toList, hnode, Option.map_some]
  · rw [List.getElem?_eq_none (by simpa using hi), List.getElem?_eq_none (by simpa using hi)]

theorem forms_isPrefix (h : a.nodes.toList <+: b.nodes.toList) : a.forms <+: b.forms :=
  h.map Node.form

theorem map_form_nodesFrom (a : Arena) (k : Nat) :
    ((a.nodesFrom k).map fun entry => entry.1.form) = a.forms.drop k := by
  have hfst : ((a.nodes.toList.drop k).zipIdx k).map Prod.fst = a.nodes.toList.drop k :=
    List.zipIdx_map_fst k _
  rw [SearchState.nodesFrom_eq, forms, ← List.map_drop, ← hfst, List.map_map, hfst]
  rfl

end Arena

/-! ## The course of a search -/

namespace SearchState

/-- The forms of the level, in order. -/
def levelForms (s : SearchState) : List Form := s.arena.forms.drop s.first

/-- Those of the forms of a level that are looked at: all of them, or none after the wanted one. -/
def lookedAt (q : Query) : List Form → List Form
  | [] => []
  | form :: rest => if q.isGoal form then [form] else form :: lookedAt q rest

end SearchState

/-- A search that has come to a level, and the forms that it has looked at before, in order. -/
inductive CourseTo (q : Query) : List Form → SearchState → Prop where
  | initial : CourseTo q [] (.initial q)
  | advance {looked : List Form} {s s' : SearchState} :
      CourseTo q looked s → s.isDone = false → s.advance q = (none, s') →
        CourseTo q (looked ++ SearchState.lookedAt q s.levelForms) s'

/-- A search from its beginning to its end, with the forms that it has looked at and with what it
has found: it goes on until a level has no nodes or holds the wanted form. -/
inductive Course (q : Query) : List Form → Finding → Prop where
  | exhausted {looked : List Form} {s : SearchState} :
      CourseTo q looked s → s.isDone = true → Course q looked (s.finding q none)
  | found {looked : List Form} {s s' : SearchState} {index : Nat} :
      CourseTo q looked s → s.isDone = false → s.advance q = (some index, s') →
        Course q (looked ++ SearchState.lookedAt q s.levelForms)
          (s'.finding q (some (s'.arena.derivation q.grammar.start index)))

namespace SearchState

variable {q : Query} {s s' : SearchState}

theorem lookedAt_isPrefix (q : Query) (forms : List Form) : lookedAt q forms <+: forms := by
  induction forms with
  | nil => exact List.prefix_rfl
  | cons form rest ih =>
    unfold lookedAt
    split
    · exact ⟨rest, rfl⟩
    · exact (List.prefix_cons_inj form).2 ih

theorem lookedAt_ne_nil {forms : List Form} (h : forms ≠ []) : lookedAt q forms ≠ [] := by
  cases forms with
  | nil => exact absurd rfl h
  | cons form rest =>
    unfold lookedAt
    split <;> exact List.cons_ne_nil _ _

theorem isGoal_of_not_isTerminal {form : Form} (h : form.isTerminal = false) :
    q.isGoal form = false := by
  by_contra hgoal
  rw [Bool.not_eq_false, Query.isGoal_iff] at hgoal
  rw [hgoal, Query.isTerminal_goal] at h
  cases h

/-! ## Looking at a level -/

theorem Ahead.addExplored (h : Ahead s s') (n : Nat) :
    Ahead { s with effort.explored := s.effort.explored + n }
      { s' with effort.explored := s'.effort.explored + n } where
  __ := h
  explored := congrArg (· + n) h.explored

/-- **Looking at nodes** adds their number to the counter, up to the wanted form, and leaves the
place where the search stands. Forms are only added. -/
theorem ahead_scan (q : Query) (nodes : List (Node × Nat)) (s : SearchState) :
    Ahead { s with effort.explored :=
        s.effort.explored + (lookedAt q (nodes.map fun entry => entry.1.form)).length }
      (s.scan q nodes).2 := by
  induction nodes generalizing s with
  | nil => exact .refl s
  | cons entry rest ih =>
    obtain ⟨node, index⟩ := entry
    let looked : SearchState := { s with effort.explored := s.effort.explored + 1 }
    -- One look now, and as many as the rest takes.
    have hone : ∀ n : Nat, s.effort.explored + (n + 1) = looked.effort.explored + n := by
      intro n
      show s.effort.explored + (n + 1) = s.effort.explored + 1 + n
      omega
    cases hterm : node.form.isTerminal with
    | true =>
      cases hgoal : q.isGoal node.form with
      | true =>
        simp only [SearchState.scan, List.map_cons, lookedAt, hterm, hgoal, if_true]
        exact .refl looked
      | false =>
        simp only [SearchState.scan, List.map_cons, lookedAt, hterm, hgoal, if_true,
          Bool.false_eq_true, if_false, List.length_cons, hone]
        exact ih looked
    | false =>
      have hgoal := isGoal_of_not_isTerminal (q := q) hterm
      simp only [SearchState.scan, List.map_cons, lookedAt, hterm, hgoal, Bool.false_eq_true,
        if_false, List.length_cons, hone]
      exact ((ahead_expand q index node.form looked).addExplored _).trans (ih _)

/-- Without the wanted form the whole level is looked at. -/
theorem lookedAt_of_scan {nodes : List (Node × Nat)} (h : (s.scan q nodes).1 = none) :
    lookedAt q (nodes.map fun entry => entry.1.form) = nodes.map fun entry => entry.1.form := by
  induction nodes generalizing s with
  | nil => rfl
  | cons entry rest ih =>
    obtain ⟨node, index⟩ := entry
    simp only [SearchState.scan] at h
    simp only [List.map_cons, lookedAt]
    split at h
    · split at h
      · cases h
      · next hgoal => rw [if_neg hgoal, ih h]
    · next hterm =>
      rw [isGoal_of_not_isTerminal (Bool.not_eq_true _ ▸ hterm), if_neg Bool.false_ne_true, ih h]

theorem explored_advance (q : Query) (s : SearchState) :
    (s.advance q).2.effort.explored =
      s.effort.explored + (lookedAt q s.levelForms).length := by
  have h := ahead_scan q (s.arena.nodesFrom s.first) { s with effort.deepest := s.depth }
  rw [Arena.map_form_nodesFrom] at h
  exact h.explored

theorem deepest_advance (q : Query) (s : SearchState) :
    (s.advance q).2.effort.deepest = s.depth :=
  (ahead_scan q (s.arena.nodesFrom s.first) { s with effort.deepest := s.depth }).deepest

theorem forms_advance (q : Query) (s : SearchState) :
    s.arena.forms <+: (s.advance q).2.arena.forms :=
  Arena.forms_isPrefix
    (ahead_scan q (s.arena.nodesFrom s.first) { s with effort.deepest := s.depth }).nodes

theorem lookedAt_of_advance (h : (s.advance q).1 = none) :
    lookedAt q s.levelForms = s.levelForms := by
  have hscan := lookedAt_of_scan (s := { s with effort.deepest := s.depth }) h
  rwa [Arena.map_form_nodesFrom] at hscan

/-- On a level that has nodes something is looked at. -/
theorem lookedAt_levelForms_ne_nil (hdone : s.isDone = false) : lookedAt q s.levelForms ≠ [] := by
  have hlt : s.first < s.arena.size := by simpa [isDone] using hdone
  refine lookedAt_ne_nil ?_
  rw [levelForms, ne_eq, List.drop_eq_nil_iff, Arena.length_forms]
  omega

/-- Whatever part of a level was looked at, a run was cut off at the bound only if this level is at
the bound. -/
theorem Scanning.atBound {last k : Nat} (hs : Scanning q last k [] s)
    (h : s.effort.depthLimitHit = true) : q.atBound s.depth = true := by
  obtain ⟨i, d, hd, hi, -, hbound⟩ := hs.depthLimit.1 h
  have hle : d.length ≤ s.depth := by
    rcases Nat.lt_or_ge i s.first with hfirst | hfirst
    · exact (hs.earlier i d hd hfirst).le
    · exact (hs.level i d hd hfirst (hi.trans_le hs.le_last)).le
  by_contra hdepth
  rw [Bool.not_eq_true] at hdepth
  rw [Query.atBound_mono hle hdepth] at hbound
  cases hbound

/-- **A hit step bound is the depth of the level that was looked at.** -/
theorem Reachable.stepBound_of_depthLimitHit (hq : q.Lawful) (hs : Reachable q s)
    (hdone : s.isDone = false) (h : (s.advance q).2.effort.depthLimitHit = true) :
    q.stepBound = some s.depth := by
  have hlevel := hs.level hq
  have hstart : Scanning q s.arena.size s.first [] { s with effort.deepest := s.depth } :=
    { hlevel with }
  have hbound : q.atBound s.depth = true := by
    rw [← scan_depth q (s.arena.nodesFrom s.first) { s with effort.deepest := s.depth }]
    rcases hstart.scan hq (upcoming_nodesFrom hlevel.linked hlevel.le_last) with
      ⟨-, hend⟩ | ⟨index, d, -, -, hend, -⟩
    · exact hend.atBound h
    · exact hend.atBound h
  unfold Query.atBound at hbound
  split at hbound
  · next b hb =>
    have hle := hs.depth_le hdone b hb
    rw [decide_eq_true_eq] at hbound
    rw [hb, Nat.le_antisymm hbound hle]
  · cases hbound

end SearchState

/-! ## The counters -/

namespace CourseTo

open SearchState

variable {q : Query} {looked : List Form} {s : SearchState}

theorem reachable (h : CourseTo q looked s) : Reachable q s := by
  induction h with
  | initial => exact .initial
  | advance _ hdone hadvance ih => exact ih.advance hdone hadvance

/-- Before a level the search has looked at the forms stored before it, each once. -/
theorem looked_eq (h : CourseTo q looked s) :
    looked = s.arena.forms.take s.first := by
  induction h with
  | initial => rfl
  | @advance looked s s' hs hdone hadvance ih =>
    have hlevel : s' = (s.advance q).2 := by rw [hadvance]
    have hfirst : s'.first = s.arena.size := by
      rw [hlevel]
      rfl
    obtain ⟨later, hlater⟩ := forms_advance q s
    rw [lookedAt_of_advance (by rw [hadvance]), levelForms, ih, List.take_append_drop, hfirst,
      hlevel, ← hlater, ← Arena.length_forms, List.take_left]

theorem explored_eq (h : CourseTo q looked s) :
    s.effort.explored = looked.length := by
  induction h with
  | initial => rfl
  | @advance looked s s' hs hdone hadvance ih =>
    have hexplored := explored_advance q s
    rw [hadvance] at hexplored
    rw [hexplored, ih, List.length_append]

theorem length_looked (hq : q.Lawful) (h : CourseTo q looked s) : looked.length = s.first := by
  rw [h.looked_eq, List.length_take, Arena.length_forms]
  exact Nat.min_eq_left (h.reachable.level hq).le_last

/-- Every level before this one had a form to look at. -/
theorem depth_le (h : CourseTo q looked s) : s.depth ≤ looked.length := by
  induction h with
  | initial => exact Nat.le_refl 0
  | @advance looked s s' hs hdone hadvance ih =>
    have hdepth : s'.depth = s.depth + 1 := by
      rw [show s' = (s.advance q).2 by rw [hadvance]]
      rfl
    have hpos := List.length_pos_iff.2 (lookedAt_levelForms_ne_nil (q := q) hdone)
    rw [List.length_append]
    omega

end CourseTo

/-- What a search has spent, compared with the forms that it has looked at. -/
structure Effort.Exact (e : Effort) (maxStates : Nat) (looked : List Form) : Prop where
  nodup : looked.Nodup
  explored_eq : e.explored = looked.length
  explored_pos : 1 ≤ e.explored
  explored_le : e.explored ≤ max 1 maxStates
  deepest_lt : e.deepest < e.explored
  deepest_le : ∀ b, e.stepBound = some b → e.deepest ≤ b
  depthLimit : e.depthLimitHit = true → e.stepBound = some e.deepest

namespace CourseTo

open SearchState

variable {q : Query} {looked : List Form} {s : SearchState}

/-- **The counters are exact after every level that has nodes,** whether it holds the wanted form
or not. -/
theorem exact_advance (hq : q.Lawful) (h : CourseTo q looked s) (hdone : s.isDone = false) :
    (s.advance q).2.effort.Exact q.maxStates (looked ++ lookedAt q s.levelForms) := by
  have hstocked : Stocked q s := (h.reachable.level hq).toStocked
  have hbound : (s.advance q).2.effort.stepBound = q.stepBound :=
    (Visited.stocked hq ⟨s, h.reachable, .inr rfl⟩).stepBound
  have hexplored : (s.advance q).2.effort.explored =
      (looked ++ lookedAt q s.levelForms).length := by
    rw [explored_advance, h.explored_eq, List.length_append]
  -- All that was looked at was stored before, so it differs and is not too much.
  have hstored : looked ++ lookedAt q s.levelForms <+: s.arena.forms := by
    have hlevel := (List.prefix_append_right_inj looked).2 (lookedAt_isPrefix q s.levelForms)
    rwa [h.looked_eq, levelForms, List.take_append_drop, ← h.looked_eq] at hlevel
  have hnodup : s.arena.forms.Nodup := by
    rw [← hstocked.linked.map_endForm]
    exact hstocked.catalogue.nodup
  have hlength := hstored.length_le
  rw [Arena.length_forms] at hlength
  have hpos := List.length_pos_iff.2 (lookedAt_levelForms_ne_nil (q := q) hdone)
  have hdepth := h.depth_le
  have hsize := hstocked.size_le
  have hdeepest := deepest_advance q s
  rw [List.length_append] at hexplored hlength
  refine
    { nodup := hnodup.sublist hstored.sublist
      explored_eq := by rw [hexplored, List.length_append]
      explored_pos := by omega
      explored_le := by omega
      deepest_lt := by omega
      deepest_le := ?_
      depthLimit := ?_ }
  · intro b hb
    rw [hbound] at hb
    rw [hdeepest]
    exact h.reachable.depth_le hdone b hb
  · intro hhit
    rw [hbound, hdeepest]
    exact h.reachable.stepBound_of_depthLimitHit hq hdone hhit

/-- At a level without nodes all stored forms have been looked at. -/
theorem exact_of_isDone (hq : q.Lawful) (h : CourseTo q looked s) (hdone : s.isDone = true) :
    s.effort.Exact q.maxStates looked ∧ s.effort.explored = s.arena.size := by
  constructor
  · cases h with
    | initial => cases hdone
    | advance hs hbefore hadvance =>
      have hexact := hs.exact_advance hq hbefore
      rwa [hadvance] at hexact
  · have hend : s.arena.size ≤ s.first := by simpa [isDone] using hdone
    rw [h.explored_eq, h.length_looked hq]
    exact Nat.le_antisymm (h.reachable.level hq).le_last hend

end CourseTo

/-! ## The end -/

/-- Every state before a level is one that a course comes to. -/
theorem SearchState.Reachable.exists_courseTo {q : Query} {s : SearchState}
    (h : SearchState.Reachable q s) : ∃ looked, CourseTo q looked s := by
  induction h with
  | initial => exact ⟨[], .initial⟩
  | advance _ hdone hadvance ih =>
    obtain ⟨looked, hlooked⟩ := ih
    exact ⟨_, hlooked.advance hdone hadvance⟩

/-- **Every search has an end.** -/
theorem exists_course_of_search (g : Grammar) (cls : GrammarClass) (input : String)
    (limits : SearchLimits) :
    ∃ looked, Course (.new g cls input limits) looked (search g cls input limits) := by
  rcases SearchRun.levels_cases (Query.lawful_new g cls input limits) .initial (Nat.le_refl _) with
    ⟨s, hs, hdone, hfinding⟩ | ⟨s, hs, index, s', hadvance, hfinding⟩
  · obtain ⟨looked, hlooked⟩ := hs.exists_courseTo
    rw [search, SearchRun.ofQuery, hfinding]
    exact ⟨looked, .exhausted hlooked hdone⟩
  · obtain ⟨looked, hlooked⟩ := hs.exists_courseTo
    have hdone := SearchState.not_isDone_of_advance hadvance
    rw [search, SearchRun.ofQuery, hfinding]
    exact ⟨_, .found hlooked hdone hadvance⟩

/-- **Every search ends, looks at no form twice, and counts exactly.** Whatever the grammar, the
class, the string and the limits are, the search comes to an end after finitely many levels. The
forms it has looked at differ and are counted, at least one and at most as many as may be stored;
the last level is less deep than this number and not deeper than the step bound, and the bound was
hit only on it. A derivation that is found ends on the last level, and a search that finds none for
lack of room has looked at as many forms as may be stored. -/
theorem search_accounted (g : Grammar) (cls : GrammarClass) (input : String)
    (limits : SearchLimits) :
    (∃ looked, Course (.new g cls input limits) looked (search g cls input limits) ∧
      (search g cls input limits).effort.Exact limits.maxStates looked) ∧
    (∀ d, (search g cls input limits).derivation = some d →
      (search g cls input limits).effort.deepest = d.length) ∧
    ((search g cls input limits).belongs = false →
      (search g cls input limits).effort.stateLimitHit = true →
        (search g cls input limits).effort.explored = max 1 limits.maxStates) := by
  have hq := Query.lawful_new g cls input limits
  obtain ⟨looked, hcourse⟩ := exists_course_of_search g cls input limits
  generalize search g cls input limits = f at hcourse ⊢
  cases hcourse with
  | @exhausted _ s hs hdone =>
    obtain ⟨hexact, hall⟩ := hs.exact_of_isDone hq hdone
    refine ⟨⟨looked, .exhausted hs hdone, hexact⟩, ?_, ?_⟩
    · intro d hd
      cases hd
    · intro _ hhit
      -- No form is left to look at, so the stored forms are counted, and the room is full.
      have hstocked := (hs.reachable.level hq).toStocked
      have hfull : limits.maxStates ≤ s.arena.size := (hstocked.full hhit).1
      have hsize : s.arena.size ≤ max 1 limits.maxStates := hstocked.size_le
      have hpos := hexact.explored_pos
      show s.effort.explored = max 1 limits.maxStates
      omega
  | @found looked s s' index hs hdone hadvance =>
    have hexact := hs.exact_advance hq hdone
    have hdeepest := SearchState.deepest_advance (.new g cls input limits) s
    rw [hadvance] at hexact hdeepest
    refine ⟨⟨_, .found hs hdone hadvance, hexact⟩, ?_, ?_⟩
    · intro d hd
      obtain rfl := Option.some.inj hd
      rcases (hs.reachable.level hq).advance hq with ⟨hnone, -⟩ | ⟨i, e, hsome, -, he, -, hlength⟩
      · rw [hadvance] at hnone
        cases hnone
      · -- The wanted form stands on this level, whose number is the length of its derivation.
        rw [hadvance] at hsome he
        obtain rfl := Option.some.inj hsome
        show s'.effort.deepest = (s'.arena.derivation g.start index).length
        rw [hdeepest, ← hlength, ← SearchState.derivation_eq he]
        rfl
    · intro hnone
      cases hnone

/-- Taken for regular, the forms of this grammar grow without end and without a step bound. The
search for `b` ends all the same, after as many different forms as it may store. -/
theorem search_accounted_circling :
    (search circling .regular "b" { maxStates := 6 }).effort.stepBound = none ∧
      (search circling .regular "b" { maxStates := 6 }).effort.stateLimitHit = true ∧
      (search circling .regular "b" { maxStates := 6 }).effort.explored = 6 ∧
      ∃ looked, looked.Nodup ∧ looked.length = 6 ∧
        Course (.new circling .regular "b" { maxStates := 6 }) looked
          (search circling .regular "b" { maxStates := 6 }) := by
  obtain ⟨⟨looked, hcourse, hexact⟩, -, hfull⟩ :=
    search_accounted circling .regular "b" { maxStates := 6 }
  have hhit : (search circling .regular "b" { maxStates := 6 }).effort.stateLimitHit = true := by
    decide +kernel
  have hsix := hfull (by decide +kernel) hhit
  exact ⟨by decide +kernel, hhit, hsix, looked, hexact.nodup, hexact.explored_eq.symm.trans hsix,
    hcourse⟩

end PhraseStructure
