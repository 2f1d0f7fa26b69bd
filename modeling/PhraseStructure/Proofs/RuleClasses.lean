import Mathlib.Data.List.Pairwise
import Mathlib.Tactic.Tauto
import PhraseStructure.Proofs.Linearity
import PhraseStructure.Source.Check

/-!
# What the class of rules says

The class of rules is found by a row of tests, of which the first that is passed decides. The tests
are not nested: context-free rules that erase are not context-sensitive by the letter. But each
class and those above it are told from the ones below by a condition on single rules and pairs of
rules (`regular_le_iff`, `contextFree_le_iff`, `contextSensitive_le_iff`), and such a condition is
kept when rules are taken away. So it is the set of the rules that counts, not their list.

Context-sensitive rules do not shrink forms, except that the start symbol may be erased. Where it
may be, no right-hand side has it, so once it is rewritten it is gone: `Settled` says that erasing
is over, every step from a settled form leads to a settled form that is no shorter, and the first
step of a derivation leads to a settled form or to the empty one.

* `classifyRules_of_subset`: more rules never belong to a less general class.
* `never_shrinks_of_contextSensitive`: only the first step can erase, and then it is the last.
-/

namespace PhraseStructure

/-! ## The tests -/

namespace GrammarClass

theorem type_injective {a b : GrammarClass} (h : a.type = b.type) : a = b := by
  cases a <;> cases b <;> simp [type] at h ⊢

theorem le_antisymm {a b : GrammarClass} (hab : a ≤ b) (hba : b ≤ a) : a = b :=
  type_injective (Nat.le_antisymm hab hba)

end GrammarClass

/-- Context-sensitive rules do not shrink what they rewrite, or erase the start symbol alone, which
then stands on no right-hand side. -/
theorem isContextSensitive_iff {start : Char} {rules : List Rule} :
    isContextSensitive start rules = true ↔
      ∀ r ∈ rules, r.right ≠ [] ∧ r.left.length ≤ r.right.length ∨
        r.right = [] ∧ r.left = [.nonterminal start] ∧
          ∀ r' ∈ rules, .nonterminal start ∉ r'.right := by
  unfold isContextSensitive
  rw [List.all_eq_true]
  refine forall₂_congr fun r hr => ?_
  by_cases hright : r.right = []
  · simp [hright]
  · simp [hright]

section

variable {start : Char} {rules : List Rule}

theorem regular_le_iff :
    .regular ≤ classifyRules start rules ↔ (linearity? rules).isSome = true := by
  unfold classifyRules
  split_ifs with hregular hfree hsensitive
  · exact iff_of_true (by decide) hregular
  all_goals exact iff_of_false (by decide) hregular

theorem contextFree_le_iff :
    .contextFree ≤ classifyRules start rules ↔ ∀ r ∈ rules, r.isContextFree = true := by
  rw [← List.all_eq_true]
  unfold classifyRules
  split_ifs with hregular hfree hsensitive
  · refine iff_of_true (by decide) (List.all_eq_true.2 fun r hr => ?_)
    exact ((isSome_linearity?_iff.1 hregular).1 r hr).1
  · exact iff_of_true (by decide) hfree
  all_goals exact iff_of_false (by decide) hfree

theorem contextSensitive_le_iff :
    .contextSensitive ≤ classifyRules start rules ↔
      (∀ r ∈ rules, r.isContextFree = true) ∨ isContextSensitive start rules = true := by
  rw [← @contextFree_le_iff start]
  unfold classifyRules
  split_ifs with hregular hfree hsensitive
  · exact iff_of_true (by decide) (.inl (by decide))
  · exact iff_of_true (by decide) (.inl (by decide))
  · exact iff_of_true (by decide) (.inr hsensitive)
  · exact iff_of_false (by decide) fun h => h.elim (by decide) hsensitive

end

/-! ## Fewer rules -/

section

variable {start : Char} {xs ys : List Rule}

/-- **Every condition of a class is kept when rules are taken away.** -/
theorem le_classifyRules_of_subset (h : xs ⊆ ys) {cls : GrammarClass}
    (hys : cls ≤ classifyRules start ys) : cls ≤ classifyRules start xs := by
  cases cls with
  | unrestricted => exact Nat.zero_le _
  | contextSensitive =>
    rw [contextSensitive_le_iff] at hys ⊢
    refine hys.imp (fun hfree r hr => hfree r (h hr)) ?_
    intro hsensitive
    rw [isContextSensitive_iff] at hsensitive ⊢
    intro r hr
    -- The start symbol is on no right-hand side of the larger list either.
    refine (hsensitive r (h hr)).imp_right ?_
    rintro ⟨hright, hleft, hstart⟩
    exact ⟨hright, hleft, fun r' hr' => hstart r' (h hr')⟩
  | contextFree =>
    rw [contextFree_le_iff] at hys ⊢
    exact fun r hr => hys r (h hr)
  | regular =>
    rw [regular_le_iff, isSome_linearity?_iff] at hys ⊢
    exact ⟨fun r hr => hys.1 r (h hr), fun r hr r' hr' => hys.2 r (h hr) r' (h hr')⟩

theorem linearity?_eq_of_mem_iff (h : ∀ r, r ∈ xs ↔ r ∈ ys) : linearity? xs = linearity? ys := by
  simp only [linearity?_eq, h]

/-- **More rules never belong to a less general class.** So neither the order of the rules nor their
repetition counts, for the class and for the side of the nonterminals, and since every production
rewrites one nonterminal, all grammars that are read are regular or context-free. -/
theorem classifyRules_of_subset (start : Char) (xs ys : List Rule) :
    ((∀ r ∈ xs, r ∈ ys) → classifyRules start ys ≤ classifyRules start xs) ∧
    ((∀ r, r ∈ xs ↔ r ∈ ys) →
      classifyRules start xs = classifyRules start ys ∧ linearity? xs = linearity? ys) ∧
    ∀ (text : String) (maxRules : Nat) (g : Grammar), Source.read maxRules text = .ok g →
      g.classify = .regular ∨ g.classify = .contextFree := by
  refine ⟨?_, ?_, ?_⟩
  · intro h
    exact le_classifyRules_of_subset h (Nat.le_refl _)
  · intro h
    have hle : classifyRules start xs ≤ classifyRules start ys :=
      le_classifyRules_of_subset (fun r hr => (h r).2 hr) (Nat.le_refl _)
    have hge : classifyRules start ys ≤ classifyRules start xs :=
      le_classifyRules_of_subset (fun r hr => (h r).1 hr) (Nat.le_refl _)
    exact ⟨GrammarClass.le_antisymm hle hge, linearity?_eq_of_mem_iff h⟩
  · intro text maxRules g _
    rw [g.classify_eq]
    split_ifs
    · exact .inl rfl
    · exact .inr rfl

end

/-- The grammar `S → SA | ε`, `A → a`, whose rules the context-sensitive test would refuse, since
they erase a start symbol that comes back. -/
def erasing : Grammar :=
  { nonterminals := .ofList ['S', 'A']
    terminals := .ofList ['a']
    start := 'S'
    productions := [⟨'S', [.nonterminal 'S', .nonterminal 'A']⟩, ⟨'S', []⟩,
      ⟨'A', [.terminal 'a']⟩] }

/-- The rule `aA → Aa` joins two symbols on its left-hand side. -/
def swappingRule : Rule :=
  ⟨[.terminal 'a', .nonterminal 'A'], [.nonterminal 'A', .terminal 'a']⟩

/-- One more rule takes these rules from the third class to the first, over the second, and so it
does wherever and however often it stands. No grammar that is read has such a rule. -/
theorem classifyRules_of_subset_swapping :
    classifyRules 'S' erasing.rules = .contextFree ∧
      classifyRules 'S' (erasing.rules ++ [swappingRule]) = .unrestricted ∧
      classifyRules 'S' (erasing.rules ++ [swappingRule]) ≤ classifyRules 'S' erasing.rules ∧
      classifyRules 'S' (swappingRule :: erasing.rules ++ [swappingRule]) = .unrestricted ∧
      linearity? (swappingRule :: erasing.rules ++ [swappingRule]) =
        linearity? (erasing.rules ++ [swappingRule]) ∧
      Source.read 2 "S = S\nP = \x7b\nS -> SA | ε\nA -> a\n\x7d" = .ok erasing ∧
      (erasing.classify = .regular ∨ erasing.classify = .contextFree) := by
  have hmore : ∀ r ∈ erasing.rules, r ∈ erasing.rules ++ [swappingRule] := by decide
  have hsame : ∀ r, r ∈ swappingRule :: erasing.rules ++ [swappingRule] ↔
      r ∈ erasing.rules ++ [swappingRule] := by
    intro r
    simp only [List.cons_append, List.mem_cons, List.mem_append]
    tauto
  have hclass : classifyRules 'S' (erasing.rules ++ [swappingRule]) = .unrestricted := by decide
  have hread : Source.read 2 "S = S\nP = \x7b\nS -> SA | ε\nA -> a\n\x7d" = .ok erasing := by rfl
  obtain ⟨hweaker, -, hgrammar⟩ :=
    classifyRules_of_subset 'S' erasing.rules (erasing.rules ++ [swappingRule])
  obtain ⟨heq, hlinearity⟩ := (classifyRules_of_subset 'S' _ _).2.1 hsame
  exact ⟨by decide, hclass, hweaker hmore, heq.trans hclass, hlinearity, hread,
    hgrammar _ _ _ hread⟩

/-! ## Derivations by rules with arbitrary sides -/

/-- One occurrence of the left-hand side of a rule is replaced by its right-hand side. -/
def RewritesBy (rules : List Rule) (before after : Form) : Prop :=
  ∃ r ∈ rules, ∃ front back : Form,
    before = front ++ r.left ++ back ∧ after = front ++ r.right ++ back

/-- Nothing in the form can be erased: if some rule erases, the start symbol is not in the form. -/
def Settled (start : Char) (rules : List Rule) (form : Form) : Prop :=
  (∃ r ∈ rules, r.right = []) → .nonterminal start ∉ form

section

variable {start : Char} {rules : List Rule} {before after : Form}

/-- If a rule erases, the start symbol stands on no right-hand side. -/
theorem settled_right (h : isContextSensitive start rules = true) {r : Rule} (hr : r ∈ rules) :
    Settled start rules r.right := by
  rintro ⟨eraser, heraser, hright⟩
  rcases isContextSensitive_iff.1 h eraser heraser with ⟨hne, -⟩ | ⟨-, -, hstart⟩
  · exact absurd hright hne
  · exact hstart r hr

/-- **A step from a settled form leads to a settled form that is no shorter.** -/
theorem Settled.step (h : isContextSensitive start rules = true)
    (hbefore : Settled start rules before) (hstep : RewritesBy rules before after) :
    Settled start rules after ∧ before.length ≤ after.length := by
  obtain ⟨r, hr, front, back, rfl, rfl⟩ := hstep
  constructor
  · intro herases hmem
    have hfree := hbefore herases
    simp only [List.mem_append, not_or] at hmem hfree
    rcases hmem with (hmem | hmem) | hmem
    · exact hfree.1.1 hmem
    · exact settled_right h hr herases hmem
    · exact hfree.2 hmem
  · rcases isContextSensitive_iff.1 h r hr with ⟨-, hle⟩ | ⟨hright, hleft, -⟩
    · simp only [List.length_append]
      omega
    · -- An erasing rule would need the start symbol.
      refine absurd ?_ (hbefore ⟨r, hr, hright⟩)
      simp [hleft]

/-- **From a settled form on, lengths do not fall.** -/
theorem Settled.pairwise (h : isContextSensitive start rules = true) {form : Form}
    (hform : Settled start rules form) {forms : List Form}
    (hforms : (form :: forms).IsChain (RewritesBy rules)) :
    (form :: forms).Pairwise fun before after => before.length ≤ after.length := by
  induction forms generalizing form with
  | nil => exact List.pairwise_singleton _ _
  | cons next rest ih =>
    rw [List.isChain_cons_cons] at hforms
    obtain ⟨hnext, hle⟩ := hform.step h hforms.1
    have hrest := ih hnext hforms.2
    refine List.pairwise_cons.2 ⟨?_, hrest⟩
    intro later hlater
    rcases List.mem_cons.1 hlater with rfl | hlater
    · exact hle
    · exact Nat.le_trans hle ((List.pairwise_cons.1 hrest).1 later hlater)

/-- The first step of a derivation replaces the start symbol. -/
theorem RewritesBy.of_start (hleft : ∀ r ∈ rules, r.left ≠ [])
    (hstep : RewritesBy rules [.nonterminal start] after) : ∃ r ∈ rules, after = r.right := by
  obtain ⟨r, hr, front, back, hbefore, rfl⟩ := hstep
  have hpos := List.length_pos_iff.2 (hleft r hr)
  have hlength := congrArg List.length hbefore
  simp only [List.length_singleton, List.length_append] at hlength
  obtain rfl : front = [] := List.length_eq_zero_iff.1 (by omega)
  obtain rfl : back = [] := List.length_eq_zero_iff.1 (by omega)
  exact ⟨r, hr, by simp⟩

/-- Without empty left-hand sides the empty form is the end of every derivation. -/
theorem not_rewritesBy_nil (hleft : ∀ r ∈ rules, r.left ≠ []) : ¬ RewritesBy rules [] after := by
  rintro ⟨r, hr, front, back, hbefore, -⟩
  have hnil := hbefore.symm
  simp only [List.append_eq_nil_iff] at hnil
  exact hleft r hr hnil.1.2

/-- Only the first step of a derivation can erase, and then it is the last one. -/
theorem erased_or_pairwise (h : isContextSensitive start rules = true)
    (hleft : ∀ r ∈ rules, r.left ≠ []) {forms : List Form}
    (hforms : ([.nonterminal start] :: forms).IsChain (RewritesBy rules)) :
    forms = [[]] ∨ ([.nonterminal start] :: forms).Pairwise fun before after =>
      before.length ≤ after.length := by
  cases forms with
  | nil => exact .inr (List.pairwise_singleton _ _)
  | cons first rest =>
    rw [List.isChain_cons_cons] at hforms
    obtain ⟨hfirst, hrest⟩ := hforms
    obtain ⟨r, hr, rfl⟩ := hfirst.of_start hleft
    by_cases hright : r.right = []
    · left
      cases rest with
      | nil => rw [hright]
      | cons next rest =>
        rw [hright, List.isChain_cons_cons] at hrest
        exact absurd hrest.1 (not_rewritesBy_nil hleft)
    · right
      have hlater := (settled_right h hr).pairwise h hrest
      have hpos := List.length_pos_iff.2 hright
      refine List.pairwise_cons.2 ⟨?_, hlater⟩
      intro later hmem
      rw [List.length_singleton]
      rcases List.mem_cons.1 hmem with rfl | hmem
      · exact hpos
      · exact Nat.le_trans hpos ((List.pairwise_cons.1 hlater).1 later hmem)

theorem isContextSensitive_of_classifyRules (h : classifyRules start rules = .contextSensitive) :
    isContextSensitive start rules = true := by
  have hnotFree : ¬ ∀ r ∈ rules, r.isContextFree = true := by
    rw [← @contextFree_le_iff start, h]
    decide
  have hle : .contextSensitive ≤ classifyRules start rules := by rw [h]; decide
  exact (contextSensitive_le_iff.1 hle).resolve_left hnotFree

/-- **Derivations by context-sensitive rules never shrink,** in whatever places their steps are,
unless the only step erases the start symbol. So no form on the way to a string that is not empty is
longer than the string. -/
theorem never_shrinks_of_contextSensitive (hleft : ∀ r ∈ rules, r.left ≠ [])
    (hclass : classifyRules start rules = .contextSensitive) {forms : List Form}
    (hforms : ([.nonterminal start] :: forms).IsChain (RewritesBy rules)) :
    (forms = [[]] ∨
      ([.nonterminal start] :: forms).Pairwise fun before after => before.length ≤ after.length) ∧
    ∀ w : String, w ≠ "" →
      ([.nonterminal start] :: forms).getLast? = some (w.toList.map Symbol.terminal) →
        ∀ form ∈ [.nonterminal start] :: forms, form.length ≤ w.length := by
  have hcases := erased_or_pairwise (isContextSensitive_of_classifyRules hclass) hleft hforms
  refine ⟨hcases, ?_⟩
  intro w hw hlast form hform
  rcases hcases with rfl | hpairwise
  · -- What has been erased is no other string than the empty one.
    have hnil : w.toList.map Symbol.terminal = [] := (Option.some.inj hlast).symm
    exact absurd (String.toList_eq_nil_iff.1 (List.map_eq_nil_iff.1 hnil)) hw
  · have hle := hpairwise.rel_getLast_of_rel_getLast_getLast hform (Nat.le_refl _)
    rw [List.getLast?_eq_some_getLast (List.cons_ne_nil _ _)] at hlast
    rwa [Option.some.inj hlast, List.length_map, String.length_toList] at hle

end

/-- Rules for the strings of as many letters `a` as `b` as `c`, among them the empty string:
`S → ε | A`, `A → aABc | abc`, `cB → Bc`, `bB → bb`. -/
def tripleRules : List Rule :=
  [⟨[.nonterminal 'S'], []⟩, ⟨[.nonterminal 'S'], [.nonterminal 'A']⟩,
    ⟨[.nonterminal 'A'], [.terminal 'a', .nonterminal 'A', .nonterminal 'B', .terminal 'c']⟩,
    ⟨[.nonterminal 'A'], [.terminal 'a', .terminal 'b', .terminal 'c']⟩,
    ⟨[.terminal 'c', .nonterminal 'B'], [.nonterminal 'B', .terminal 'c']⟩,
    ⟨[.terminal 'b', .nonterminal 'B'], [.terminal 'b', .terminal 'b']⟩]

/-- The forms of a derivation by these rules: `A`, `aABc`, `aabcBc`, `aabBcc`, `aabbcc`. -/
def tripleForms : List Form :=
  ["A", "aABc", "aabcBc", "aabBcc", "aabbcc"].map fun text => Form.ofChars text.toList

theorem isChain_tripleForms :
    ([.nonterminal 'S'] :: tripleForms).IsChain (RewritesBy tripleRules) := by
  refine .cons_cons ⟨tripleRules[1], by decide, [], [], rfl, rfl⟩ ?_
  refine .cons_cons ⟨tripleRules[2], by decide, [], [], by decide, by decide⟩ ?_
  refine .cons_cons ⟨tripleRules[3], by decide, Form.ofChars ['a'], Form.ofChars ['B', 'c'],
    by decide, by decide⟩ ?_
  refine .cons_cons ⟨tripleRules[4], by decide, Form.ofChars ['a', 'a', 'b'], Form.ofChars ['c'],
    by decide, by decide⟩ ?_
  refine .cons_cons ⟨tripleRules[5], by decide, Form.ofChars ['a', 'a'], Form.ofChars ['c', 'c'],
    by decide, by decide⟩ ?_
  exact .singleton _

/-- Although these rules can erase, no step on the way to `aabbcc` leads to a shorter form, and no
form has more than six symbols. -/
theorem never_shrinks_of_contextSensitive_triple :
    classifyRules 'S' tripleRules = .contextSensitive ∧
      [[.nonterminal 'S'], []].IsChain (RewritesBy tripleRules) ∧
      (([.nonterminal 'S'] :: tripleForms).Pairwise fun before after =>
        before.length ≤ after.length) ∧
      ∀ form ∈ [.nonterminal 'S'] :: tripleForms, form.length ≤ "aabbcc".length := by
  have hclass : classifyRules 'S' tripleRules = .contextSensitive := by decide
  have hleft : ∀ r ∈ tripleRules, r.left ≠ [] := by decide
  have hlast : ([.nonterminal 'S'] :: tripleForms).getLast? =
      some ("aabbcc".toList.map Symbol.terminal) := by decide
  obtain ⟨hcases, hshort⟩ := never_shrinks_of_contextSensitive hleft hclass isChain_tripleForms
  refine ⟨hclass, ?_, hcases.resolve_left (by decide), hshort "aabbcc" (by decide) hlast⟩
  exact .cons_cons ⟨tripleRules[0], by decide, [], [], rfl, rfl⟩ (.singleton _)

end PhraseStructure
