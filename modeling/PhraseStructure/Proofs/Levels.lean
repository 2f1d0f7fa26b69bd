import Mathlib.Order.Bounds.Basic
import PhraseStructure.Proofs.Effort

/-!
# What is stored before a level

Before each level a search with enough room has stored exactly the passing forms up to this depth.
The depth of a form is the least number of leftmost steps to it, through whatever forms: leaving out
a form loses no passing form behind it, since whatever becomes a passing form passes, so pruned
forms make no detours necessary. The runs that the arena holds are the first ones of all runs to
their forms (`Catalogue.least`), so their lengths are the depths and their numbers are the least.

* `Grammar.IsDepth`, `Grammar.IsFirst`: the depth of a form, and the first numbers that lead to it.
* `Level.stores_of_length_le`: no passing form up to the depth of the level is missing.
* `Arena.Linked.length_stepsTo`: the number of links from a stored form back to the start.
* `layered_of_reachable`: what the arena and the level consist of.
-/

namespace PhraseStructure

/-! ## The depth of a form -/

namespace Grammar

variable {g : Grammar}

/-- The form is reached from the start form by exactly `n` leftmost steps. -/
inductive ReachesLeftmost (g : Grammar) : Nat → Form → Prop where
  | start : ReachesLeftmost g 0 g.startForm
  | step {n : Nat} {before after : Form} :
      ReachesLeftmost g n before → g.RewritesLeftmost before after → ReachesLeftmost g (n + 1) after

/-- The least number of leftmost steps that lead to the form is `n`. -/
def IsDepth (g : Grammar) (form : Form) (n : Nat) : Prop :=
  IsLeast {k | g.ReachesLeftmost k form} n

/-- Of all shortest sequences of productions that lead to the form by leftmost steps, `numbers` is
the lexicographically least. -/
def IsFirst (g : Grammar) (form : Form) (numbers : List Nat) : Prop :=
  IsLeast {ns | ∃ d, g.LeftmostRun d ∧ d.endForm = form ∧ g.IsDepth form d.length ∧
    d.numbers = ns} numbers

/-- A leftmost step replaces the symbol after the terminals that a form starts with. -/
theorem exists_of_mem_leftmostSteps {form : Form} {step : Step} (h : step ∈ g.leftmostSteps form) :
    ∃ p left right, g.productions[step.production]? = some p ∧ Form.isTerminal left = true ∧
      step.position = left.length ∧ form = left ++ .nonterminal p.lhs :: right ∧
        step.form = left ++ p.rhs ++ right := by
  obtain ⟨hfollows, hterm⟩ := mem_leftmostSteps.1 h
  obtain ⟨p, left, right, hget, rfl, hposition, hform⟩ := follows_iff.1 hfollows
  rw [hposition, List.take_left] at hterm
  exact ⟨p, left, right, hget, hterm, hposition, rfl, hform⟩

theorem exists_leftmostStep_iff {before after : Form} :
    (∃ step ∈ g.leftmostSteps before, step.form = after) ↔ g.RewritesLeftmost before after := by
  constructor
  · rintro ⟨step, hstep, rfl⟩
    obtain ⟨p, left, right, hget, hterm, -, hbefore, hafter⟩ := exists_of_mem_leftmostSteps hstep
    exact ⟨p, List.mem_of_getElem? hget, left, right, hterm, hbefore, hafter⟩
  · rintro ⟨p, hp, left, right, hterm, rfl, rfl⟩
    exact exists_leftmostStep hp hterm right

/-- Leftmost steps to a form make up a run. -/
theorem reachesLeftmost_iff {n : Nat} {form : Form} :
    g.ReachesLeftmost n form ↔ ∃ d, g.LeftmostRun d ∧ d.endForm = form ∧ d.length = n := by
  constructor
  · intro h
    induction h with
    | start => exact ⟨_, .start, rfl, rfl⟩
    | step _ hrw ih =>
      obtain ⟨d, hd, rfl, hlen⟩ := ih
      obtain ⟨step, hstep, hform⟩ := exists_leftmostStep_iff.2 hrw
      refine ⟨d.extend step, hd.extend hstep, ?_, ?_⟩
      · rw [Derivation.endForm_extend, hform]
      · rw [Derivation.length_extend, hlen]
  · rintro ⟨d, hd, rfl, rfl⟩
    induction hd with
    | start => exact .start
    | extend _ hstep ih =>
      rw [Derivation.length_extend, Derivation.endForm_extend]
      exact .step ih (exists_leftmostStep_iff.1 ⟨_, hstep, rfl⟩)

theorem LeftmostRun.of_extend {d : Derivation} {step : Step} (h : g.LeftmostRun (d.extend step)) :
    step ∈ g.leftmostSteps d.endForm := by
  refine (leftmostRun_iff_moves.1 h).2 (d.endForm, step) ?_
  rw [Derivation.moves_extend]
  exact List.mem_append_right _ (List.mem_singleton_self _)

end Grammar

namespace Catalogue

variable {q : Query} {ds : List Derivation} {d : Derivation}

/-- **A listed run is as long as its form is deep.** -/
theorem isDepth (h : Catalogue q ds) (hd : d ∈ ds) : q.grammar.IsDepth d.endForm d.length := by
  refine ⟨Grammar.reachesLeftmost_iff.2 ⟨d, h.run d hd, rfl, rfl⟩, ?_⟩
  intro n hn
  obtain ⟨e, he, hform, rfl⟩ := Grammar.reachesLeftmost_iff.1 hn
  have hle := h.least d hd e he hform
  rw [Derivation.rank_le_rank] at hle
  omega

/-- **A listed run has the first numbers that lead to its form.** -/
theorem isFirst (h : Catalogue q ds) (hd : d ∈ ds) : q.grammar.IsFirst d.endForm d.numbers := by
  have hdepth := h.isDepth hd
  refine ⟨⟨d, h.run d hd, rfl, hdepth, rfl⟩, ?_⟩
  rintro ns ⟨e, he, hform, heDepth, rfl⟩
  have hlen : e.length = d.length := heDepth.unique hdepth
  have hle := h.least d hd e he hform
  rw [Derivation.rank_le_rank] at hle
  rcases hle with hlt | ⟨-, hle⟩
  · omega
  · exact hle

end Catalogue

/-! ## Links back -/

/-- The form `after` is `before` with its leftmost nonterminal replaced, by the production and at
the place that are recorded. -/
def Origin.Explains (g : Grammar) (origin : Origin) (before after : Form) : Prop :=
  ∃ (p : Production) (left right : Form), g.productions[origin.production]? = some p ∧
    left.isTerminal = true ∧ origin.position = left.length ∧
    before = left ++ .nonterminal p.lhs :: right ∧ after = left ++ p.rhs ++ right

namespace Arena

variable {g : Grammar} {a : Arena}

/-- A stored form is found by its parent's run and one more step. -/
theorem Linked.derivation_eq_extend (h : a.Linked g) {i : Nat} {form : Form} {origin : Origin}
    (hnode : a.nodes[i]? = some ⟨form, some origin⟩) (start : Char) :
    a.derivation start i =
      (a.derivation start origin.parent).extend ⟨form, origin.production, origin.position⟩ := by
  have hlt : i < a.size := (Array.getElem?_eq_some_iff.1 hnode).1
  have hpos : 0 < i := by
    rcases Nat.eq_zero_or_pos i with rfl | hpos
    · rw [h.root] at hnode
      cases hnode
    · exact hpos
  obtain ⟨origin', horigin, hparent⟩ := h.parent_lt i _ hnode hpos
  obtain rfl := Option.some.inj horigin
  obtain ⟨links, hlinks⟩ : ∃ n, a.size = n + 1 := ⟨a.size - 1, by omega⟩
  have hsteps : a.stepsTo a.size origin.parent [] = a.stepsTo links origin.parent [] :=
    h.stepsTo_eq (by omega) (by omega) []
  rw [derivation, derivation, hsteps, hlinks, stepsTo_succ hnode, stepsTo_append]
  rfl

/-- **The links from a stored form back to the start are as many as its run has steps,** however
many links may be followed. -/
theorem Linked.length_stepsTo (h : a.Linked g) {i : Nat} (hi : i < a.size) (start : Char)
    (links : Nat) :
    (a.stepsTo links i []).length = min links (a.derivation start i).length := by
  induction i using Nat.strong_induction_on generalizing links with
  | _ i ih =>
    obtain ⟨⟨form, origin?⟩, hnode⟩ : ∃ node, a.nodes[i]? = some node :=
      ⟨_, Array.getElem?_eq_getElem hi⟩
    cases links with
    | zero => simp [stepsTo]
    | succ links =>
      rcases Nat.eq_zero_or_pos i with rfl | hpos
      · simp [derivation, Derivation.length, h.stepsTo_zero]
      · obtain ⟨origin, horigin, hlt⟩ := h.parent_lt i _ hnode hpos
        obtain rfl : origin? = some origin := horigin
        rw [h.derivation_eq_extend hnode, Derivation.length_extend, stepsTo_succ hnode,
          stepsTo_append, List.length_append, ih origin.parent hlt (by omega),
          List.length_singleton]
        omega

end Arena

/-! ## Levels -/

namespace SearchState

variable {q : Query} {s : SearchState} {d : Derivation}

theorem Level.length_le (hs : Level q s) (hd : d ∈ s.runs q) : d.length ≤ s.depth := by
  obtain ⟨i, hi⟩ := List.getElem?_of_mem hd
  rcases Nat.lt_or_ge i s.first with h | h
  · exact (hs.earlier i d hi h).le
  · exact (hs.level i d hi h (lt_size_of_getElem? hi)).le

/-- The level consists of the stored runs that are as long as the level is deep. -/
theorem Level.mem_drop_iff (hs : Level q s) :
    d ∈ (s.runs q).drop s.first ↔ d ∈ s.runs q ∧ d.length = s.depth := by
  constructor
  · intro hd
    obtain ⟨i, hi⟩ := List.getElem?_of_mem hd
    rw [List.getElem?_drop] at hi
    exact ⟨List.mem_of_getElem? hi,
      hs.level _ d hi (Nat.le_add_right _ _) (lt_size_of_getElem? hi)⟩
  · rintro ⟨hd, hlen⟩
    obtain ⟨i, hi⟩ := List.getElem?_of_mem hd
    have hle : s.first ≤ i := by
      by_contra hlt
      have := hs.earlier i d hi (Nat.lt_of_not_le hlt)
      omega
    obtain ⟨k, rfl⟩ := Nat.exists_eq_add_of_le hle
    rw [← List.getElem?_drop] at hi
    exact List.mem_of_getElem? hi

/-- **No passing form is missing up to the depth of a level,** if there was room and no form had to
be cut off. -/
theorem Level.stores_of_length_le (hs : Level q s) (hq : q.Lawful)
    (hroom : s.effort.stateLimitHit = false) (hcut : s.effort.depthLimitHit = false)
    {e : Derivation} (he : q.grammar.LeftmostRun e) (hpasses : q.sieve.passes e.endForm = true)
    (hlen : e.length ≤ s.depth) : Stores (s.runs q) e.endForm := by
  have hbound : ∀ f : Derivation,
      f.rank < toLex (s.depth + 1, []) ↔ f.length < s.depth + 1 := by
    intro f
    rw [Derivation.rank, Prod.Lex.toLex_lt_toLex]
    exact or_iff_left fun h => absurd h.2 (List.not_lt_nil _)
  refine hs.catalogue.stores_of_rank_lt hq ?_ he (.inr hpasses) ((hbound e).2 (by omega))
  intro d hd step hstep hstepPasses hrank
  rw [hbound, Derivation.length_extend] at hrank
  obtain ⟨i, hi⟩ := List.getElem?_of_mem hd
  -- Shorter runs were rewritten on an earlier level.
  have hlooked : i < s.first := by
    by_contra hge
    have := hs.level i d hi (Nat.le_of_not_lt hge) (lt_size_of_getElem? hi)
    omega
  have hterm : d.endForm.isTerminal = false := by
    by_contra h
    rw [Bool.not_eq_false] at h
    rw [Grammar.leftmostSteps_of_isTerminal h] at hstep
    cases hstep
  have hfree : q.atBound d.length = false := by
    by_contra h
    rw [Bool.not_eq_false] at h
    rw [hs.depthLimit.2 ⟨i, d, hi, hlooked, hterm, h⟩] at hcut
    cases hcut
  exact hs.closed hroom i d step hi (.inl ⟨hlooked, hfree⟩) hstep hstepPasses

/-- Before a level that has nodes no form was cut off at the step bound. -/
theorem Reachable.depthLimitHit_eq_false (hq : q.Lawful) (hs : Reachable q s)
    (hdone : s.isDone = false) : s.effort.depthLimitHit = false := by
  by_contra h
  rw [Bool.not_eq_false] at h
  have hlevel := hs.level hq
  obtain ⟨i, d, hi, hlt, -, hbound⟩ := hlevel.depthLimit.1 h
  have hlen := hlevel.earlier i d hi hlt
  unfold Query.atBound at hbound
  split at hbound
  · next b hb =>
    have hle := hs.depth_le hdone b hb
    rw [decide_eq_true_eq] at hbound
    omega
  · cases hbound

/-- What the arena and the level of a search consist of. -/
structure Layered (q : Query) (s : SearchState) : Prop where
  root : s.arena.nodes[0]? = some ⟨q.grammar.startForm, none⟩
  /-- No form is stored twice. -/
  nodup : s.arena.forms.Nodup
  /-- The stored forms are the start form and the passing forms up to the depth of the level. -/
  mem_forms : ∀ form, form ∈ s.arena.forms ↔ form = q.grammar.startForm ∨
    q.sieve.passes form = true ∧ ∃ n ≤ s.depth, q.grammar.IsDepth form n
  /-- Those of the level are just as deep as the level. -/
  mem_levelForms : ∀ form, form ∈ s.levelForms ↔
    form ∈ s.arena.forms ∧ q.grammar.IsDepth form s.depth
  /-- They are listed in the order of the first numbers that lead to them. -/
  ordered : ∃ numbers, List.Forall₂ q.grammar.IsFirst s.levelForms numbers ∧
    numbers.Pairwise (· < ·)
  /-- Every other form is one step deeper than its parent, which was stored before it, and the
  recorded step leads from the one to the other. -/
  origin : ∀ (i : Nat) (node : Node), s.arena.nodes[i]? = some node → 0 < i →
    ∃ (origin : Origin) (parent : Node) (n : Nat), node.origin = some origin ∧
      origin.parent < i ∧ s.arena.nodes[origin.parent]? = some parent ∧
      q.grammar.IsDepth parent.form n ∧ q.grammar.IsDepth node.form (n + 1) ∧
      origin.Explains q.grammar parent.form node.form
  /-- From a form that is `n` steps deep, exactly `n` links lead back to the start. -/
  traced : ∀ (i : Nat) (node : Node) (n : Nat), s.arena.nodes[i]? = some node →
    q.grammar.IsDepth node.form n →
      (s.arena.derivation q.grammar.start i).length = n ∧
        ∀ links, (s.arena.stepsTo links i []).length = min links n

theorem Stocked.isDepth (hs : Stocked q s) {i : Nat} {node : Node}
    (hnode : s.arena.nodes[i]? = some node) :
    q.grammar.IsDepth node.form (s.arena.derivation q.grammar.start i).length := by
  have hlt : i < s.arena.size := (Array.getElem?_eq_some_iff.1 hnode).1
  rw [← hs.linked.endForm_derivation hnode]
  exact hs.catalogue.isDepth (List.mem_of_getElem? (Arena.getElem?_derivations hlt))

theorem Stocked.mem_forms_iff (hs : Stocked q s) {form : Form} :
    form ∈ s.arena.forms ↔ Stores (s.runs q) form := by
  rw [← hs.linked.map_endForm]
  exact List.mem_map

theorem Stocked.levelForms_eq (hs : Stocked q s) :
    s.levelForms = ((s.runs q).drop s.first).map Derivation.endForm := by
  rw [levelForms, ← hs.linked.map_endForm, List.map_drop]
  rfl

theorem Level.mem_forms (hs : Level q s) (hq : q.Lawful)
    (hroom : s.effort.stateLimitHit = false) (hcut : s.effort.depthLimitHit = false)
    (form : Form) :
    form ∈ s.arena.forms ↔ form = q.grammar.startForm ∨
      q.sieve.passes form = true ∧ ∃ n ≤ s.depth, q.grammar.IsDepth form n := by
  rw [hs.mem_forms_iff]
  constructor
  · rintro ⟨d, hd, rfl⟩
    rcases hs.catalogue.passes d hd with hnil | hpasses
    · left
      have hstart := (Grammar.leftmostRun_iff_moves.1 (hs.catalogue.run d hd)).1
      simp [Derivation.endForm, hnil, Derivation.startForm, hstart, Grammar.startForm]
    · exact .inr ⟨hpasses, d.length, hs.length_le hd, hs.catalogue.isDepth hd⟩
  · rintro (rfl | ⟨hpasses, n, hn, hdepth, -⟩)
    · exact ⟨_, List.mem_of_getElem? hs.catalogue.root, rfl⟩
    · obtain ⟨e, he, rfl, rfl⟩ := Grammar.reachesLeftmost_iff.1 hdepth
      exact hs.stores_of_length_le hq hroom hcut he hpasses hn

theorem Level.mem_levelForms (hs : Level q s) (form : Form) :
    form ∈ s.levelForms ↔ form ∈ s.arena.forms ∧ q.grammar.IsDepth form s.depth := by
  rw [hs.mem_forms_iff, hs.levelForms_eq, List.mem_map]
  constructor
  · rintro ⟨d, hd, rfl⟩
    obtain ⟨hmem, hlen⟩ := hs.mem_drop_iff.1 hd
    refine ⟨⟨d, hmem, rfl⟩, ?_⟩
    rw [← hlen]
    exact hs.catalogue.isDepth hmem
  · rintro ⟨⟨d, hd, rfl⟩, hdepth⟩
    have hlen : d.length = s.depth := (hs.catalogue.isDepth hd).unique hdepth
    exact ⟨d, hs.mem_drop_iff.2 ⟨hd, hlen⟩, rfl⟩

theorem Level.ordered (hs : Level q s) :
    ∃ numbers, List.Forall₂ q.grammar.IsFirst s.levelForms numbers ∧
      numbers.Pairwise (· < ·) := by
  refine ⟨((s.runs q).drop s.first).map Derivation.numbers, ?_, ?_⟩
  · rw [hs.levelForms_eq, List.forall₂_map_left_iff, List.forall₂_map_right_iff,
      List.forall₂_same]
    exact fun d hd => hs.catalogue.isFirst (List.mem_of_mem_drop hd)
  · rw [List.pairwise_map]
    refine (hs.catalogue.sorted.drop (i := s.first)).imp_of_mem ?_
    intro d e hd he hlt
    -- Runs of one level are equally long, so their numbers decide.
    have hdLen := (hs.mem_drop_iff.1 hd).2
    have heLen := (hs.mem_drop_iff.1 he).2
    rcases Derivation.rank_lt_rank.1 hlt with hlt | ⟨-, hlt⟩
    · omega
    · exact hlt

theorem Stocked.origin (hs : Stocked q s) {i : Nat} {node : Node}
    (hnode : s.arena.nodes[i]? = some node) (hpos : 0 < i) :
    ∃ (origin : Origin) (parent : Node) (n : Nat), node.origin = some origin ∧
      origin.parent < i ∧ s.arena.nodes[origin.parent]? = some parent ∧
      q.grammar.IsDepth parent.form n ∧ q.grammar.IsDepth node.form (n + 1) ∧
      origin.Explains q.grammar parent.form node.form := by
  have hlt : i < s.arena.size := (Array.getElem?_eq_some_iff.1 hnode).1
  obtain ⟨origin, horigin, hparent⟩ := hs.linked.parent_lt i node hnode hpos
  obtain ⟨form, origin?⟩ := node
  obtain rfl : origin? = some origin := horigin
  obtain ⟨parent, hparentNode⟩ : ∃ parent, s.arena.nodes[origin.parent]? = some parent :=
    ⟨_, Array.getElem?_eq_getElem (show origin.parent < s.arena.size by omega)⟩
  have hextend := hs.linked.derivation_eq_extend hnode q.grammar.start
  have hrun := hs.catalogue.run _ (List.mem_of_getElem? (Arena.getElem?_derivations hlt))
  rw [hextend] at hrun
  -- The recorded step is one of the leftmost steps of the parent's form.
  have hstep := hrun.of_extend
  rw [hs.linked.endForm_derivation hparentNode] at hstep
  have hdepth := hs.isDepth hnode
  rw [hextend, Derivation.length_extend] at hdepth
  exact ⟨origin, parent, _, rfl, hparent, hparentNode, hs.isDepth hparentNode, hdepth,
    Grammar.exists_of_mem_leftmostSteps hstep⟩

theorem Stocked.traced (hs : Stocked q s) {i n : Nat} {node : Node}
    (hnode : s.arena.nodes[i]? = some node) (hn : q.grammar.IsDepth node.form n) :
    (s.arena.derivation q.grammar.start i).length = n ∧
      ∀ links, (s.arena.stepsTo links i []).length = min links n := by
  have hlt : i < s.arena.size := (Array.getElem?_eq_some_iff.1 hnode).1
  have hlen : (s.arena.derivation q.grammar.start i).length = n := (hs.isDepth hnode).unique hn
  refine ⟨hlen, fun links => ?_⟩
  rw [hs.linked.length_stepsTo hlt q.grammar.start, hlen]

end SearchState

/-- **What a search has stored before a level,** as long as it had room. This also describes the
level without nodes at which a search ends, unless forms were cut off at the step bound before. -/
theorem layered_of_reachable {g : Grammar} {cls : GrammarClass} {input : String}
    {limits : SearchLimits} {s : SearchState}
    (hs : SearchState.Reachable (.new g cls input limits) s)
    (hroom : s.effort.stateLimitHit = false)
    (hlevel : s.isDone = true → s.effort.depthLimitHit = false) :
    s.Layered (.new g cls input limits) := by
  have hq := Query.lawful_new g cls input limits
  have hlevelOf := hs.level hq
  have hcut : s.effort.depthLimitHit = false := by
    cases hdone : s.isDone with
    | true => exact hlevel hdone
    | false => exact hs.depthLimitHit_eq_false hq hdone
  constructor
  case root => exact hlevelOf.linked.root
  case nodup =>
    rw [← hlevelOf.linked.map_endForm]
    exact hlevelOf.catalogue.nodup
  case mem_forms => exact hlevelOf.mem_forms hq hroom hcut
  case mem_levelForms => exact hlevelOf.mem_levelForms
  case ordered => exact hlevelOf.ordered
  case origin => exact fun i node hnode hpos => hlevelOf.toStocked.origin hnode hpos
  case traced => exact fun i node n hnode hn => hlevelOf.toStocked.traced hnode hn

/-- The third level of a search for `aa` has the forms `SSS` and `aS`; the form `S`, which `SS`
leads to as well, is the start form, and the forms `a` and `ε` stand on the level before. -/
theorem layered_of_reachable_doubling :
    ∃ s, SearchState.Reachable (.new doubling .contextFree "aa" {}) s ∧ s.depth = 2 ∧
      s.effort.stateLimitHit = false ∧ s.isDone = false ∧
      s.arena.forms = ["S", "SS", "a", "", "SSS", "aS"].map (fun text => .ofChars text.toList) ∧
      s.levelForms = ["SSS", "aS"].map (fun text => .ofChars text.toList) ∧
      s.Layered (.new doubling .contextFree "aa" {}) := by
  have hnext : ∀ {q : Query} {s : SearchState}, SearchState.Reachable q s → s.isDone = false →
      (s.advance q).1 = none → SearchState.Reachable q (s.advance q).2 :=
    fun hs hdone hgoal => hs.advance hdone (Prod.ext hgoal rfl)
  have hsecond := hnext (hnext (q := .new doubling .contextFree "aa" {}) .initial
    (by decide +kernel) (by decide +kernel)) (by decide +kernel) (by decide +kernel)
  refine ⟨_, hsecond, rfl, by decide +kernel, by decide +kernel, by decide +kernel,
    by decide +kernel, layered_of_reachable hsecond (by decide +kernel) (by decide +kernel)⟩

end PhraseStructure
