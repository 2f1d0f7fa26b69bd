import Mathlib.Logic.Basic
import Mathlib.Tactic.SplitIfs
import PhraseStructure.Hierarchy

/-!
# Linear rules

Rules are linear if each of them rewrites one nonterminal, no right-hand side has another shape
than the final and the linear ones, and the nonterminals all stand on one side. `linearity?_eq`
says this about the rules as a set, and what is known of `linearity?` elsewhere follows from it.
The productions of a grammar rewrite one nonterminal each, so only linearity decides its class.

* `isSome_linearity?_iff`: which rules are linear.
* `Grammar.shape_of_linearity?`: what the side says about a single production.
* `Grammar.classify_eq`: a grammar is regular if its rules are linear, and context-free otherwise.
-/

namespace PhraseStructure

/-! ## Shapes -/

/-- The sides of regular rules have one of the four shapes that the classifier looks for. -/
theorem shape_cases {form : Form} (h : Shape.ofForm form ≠ .other) :
    form = [] ∨ (∃ a, form = [.terminal a]) ∨
      (∃ a c, form = [.terminal a, .nonterminal c] ∧ Shape.ofForm form = .rightLinear) ∨
      ∃ a c, form = [.nonterminal c, .terminal a] ∧ Shape.ofForm form = .leftLinear := by
  unfold Shape.ofForm at h
  split at h
  · exact .inl rfl
  · next a => exact .inr (.inl ⟨a, rfl⟩)
  · next a c => exact .inr (.inr (.inl ⟨a, c, rfl, rfl⟩))
  · next c a => exact .inr (.inr (.inr ⟨a, c, rfl, rfl⟩))
  · exact absurd rfl h

/-! ## The side of the nonterminals -/

/-- The side of the nonterminals depends on which rules there are. -/
theorem linearity?_eq (rules : List Rule) : linearity? rules =
    if ∀ r ∈ rules, r.isContextFree = true ∧ r.shape ≠ .other then
      if ∃ r ∈ rules, r.shape = .leftLinear then
        if ∃ r ∈ rules, r.shape = .rightLinear then none else some .left
      else some .right
    else none := by
  simp [linearity?]

/-- Regular rules rewrite single nonterminals and are not linear on both sides. -/
theorem isSome_linearity?_iff {rules : List Rule} : (linearity? rules).isSome = true ↔
    (∀ r ∈ rules, r.isContextFree = true ∧ r.shape ≠ .other) ∧
      ∀ r ∈ rules, ∀ r' ∈ rules, ¬ (r.shape = .leftLinear ∧ r'.shape = .rightLinear) := by
  rw [linearity?_eq]
  split_ifs with hrules hleft hright
  · obtain ⟨r, hr, hrshape⟩ := hleft
    obtain ⟨r', hr', hrshape'⟩ := hright
    simp only [Option.isSome_none, Bool.false_eq_true, false_iff]
    exact fun h => h.2 r hr r' hr' ⟨hrshape, hrshape'⟩
  · simp only [Option.isSome_some, true_iff]
    exact ⟨hrules, fun r hr r' hr' h => hright ⟨r', hr', h.2⟩⟩
  · simp only [Option.isSome_some, true_iff]
    exact ⟨hrules, fun r hr r' hr' h => hleft ⟨r, hr, h.1⟩⟩
  · simp only [Option.isSome_none, Bool.false_eq_true, false_iff]
    exact fun h => hrules h.1

/-! ## Grammars -/

namespace Grammar

variable {g : Grammar}

theorem isContextFree_of_mem_rules {r : Rule} (hr : r ∈ g.rules) : r.isContextFree = true := by
  obtain ⟨p, -, rfl⟩ := List.mem_map.1 hr
  rfl

/-- In a grammar the side depends on the shapes of the right-hand sides alone. -/
theorem linearity?_rules (g : Grammar) : linearity? g.rules =
    if ∀ p ∈ g.productions, Shape.ofForm p.rhs ≠ .other then
      if ∃ p ∈ g.productions, Shape.ofForm p.rhs = .leftLinear then
        if ∃ p ∈ g.productions, Shape.ofForm p.rhs = .rightLinear then none else some .left
      else some .right
    else none := by
  simp [linearity?_eq, rules, Rule.shape, Production.toRule, Rule.isContextFree]

/-- Linear productions have no other shape, and none that belongs to the other side. -/
theorem shape_of_linearity? {side : Linearity} (h : linearity? g.rules = some side)
    {p : Production} (hp : p ∈ g.productions) :
    Shape.ofForm p.rhs ≠ .other ∧ (side = .right → Shape.ofForm p.rhs ≠ .leftLinear) ∧
      (side = .left → Shape.ofForm p.rhs ≠ .rightLinear) := by
  rw [linearity?_rules] at h
  split_ifs at h with hlinear hleft hright
  · obtain rfl := Option.some.inj h
    exact ⟨hlinear p hp, nofun, fun _ hshape => hright ⟨p, hp, hshape⟩⟩
  · obtain rfl := Option.some.inj h
    exact ⟨hlinear p hp, fun _ hshape => hleft ⟨p, hp, hshape⟩, nofun⟩

/-- **A grammar is regular or context-free.** -/
theorem classify_eq (g : Grammar) :
    g.classify = if (linearity? g.rules).isSome then .regular else .contextFree := by
  have hfree : g.rules.all Rule.isContextFree = true :=
    List.all_eq_true.2 fun _ hr => isContextFree_of_mem_rules hr
  rw [classify, classifyRules, hfree]
  rfl

theorem linearity?_of_classify (h : g.classify = .regular) :
    ∃ side, linearity? g.rules = some side := by
  rw [classify_eq] at h
  split_ifs at h with hsome
  exact Option.isSome_iff_exists.1 hsome

end Grammar

end PhraseStructure
