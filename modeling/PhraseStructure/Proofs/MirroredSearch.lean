import PhraseStructure.Proofs.Completeness
import PhraseStructure.Proofs.Linearity
import PhraseStructure.Proofs.Mirror

/-!
# Searching a mirrored grammar

Searches rewrite from the left, so a search in a mirrored grammar comes to other forms than the one
in the grammar itself, and it compares their other end with the string. The verdicts are still the
same: a derivation that one search finds is turned round, which makes it a derivation in some order
of the string read backwards; it is as long as before, so it is within the other step bound, and the
other search finds one that is no longer. The bounds are equal, since mirroring changes neither the
number of productions nor which nonterminals can vanish.

* `Grammar.classify_mirror`: mirroring keeps the class, and left-linear rules become right-linear.
* `Query.stepBound_mirror`: the bound on derivations is the same.
* `search_mirrored`: so are the verdicts and the lengths of the derivations.
-/

namespace PhraseStructure

/-! ## The class of a mirrored grammar -/

namespace Shape

/-- The shape of forms that are turned round. -/
def mirror : Shape → Shape
  | rightLinear => leftLinear
  | leftLinear => rightLinear
  | shape => shape

@[simp] theorem mirror_eq_other {shape : Shape} : shape.mirror = other ↔ shape = other := by
  cases shape <;> simp [mirror]

@[simp] theorem mirror_eq_leftLinear {shape : Shape} :
    shape.mirror = leftLinear ↔ shape = rightLinear := by
  cases shape <;> simp [mirror]

@[simp] theorem mirror_eq_rightLinear {shape : Shape} :
    shape.mirror = rightLinear ↔ shape = leftLinear := by
  cases shape <;> simp [mirror]

theorem ofForm_of_three_le {form : Form} (h : 3 ≤ form.length) : ofForm form = other := by
  unfold ofForm
  split
  case h_5 => rfl
  all_goals
    simp at h

theorem ofForm_reverse (form : Form) : ofForm form.reverse = (ofForm form).mirror := by
  match form with
  | [] => rfl
  | [s] => cases s <;> rfl
  | [s, t] => cases s <;> cases t <;> rfl
  | _ :: _ :: _ :: _ =>
    rw [ofForm_of_three_le (by simp), ofForm_of_three_le (by simp)]
    rfl

end Shape

namespace Grammar

theorem linearity?_rules_mirror (g : Grammar) : linearity? g.mirror.rules =
    if ∀ p ∈ g.productions, Shape.ofForm p.rhs ≠ .other then
      if ∃ p ∈ g.productions, Shape.ofForm p.rhs = .rightLinear then
        if ∃ p ∈ g.productions, Shape.ofForm p.rhs = .leftLinear then none else some .left
      else some .right
    else none := by
  rw [linearity?_rules]
  simp [mirror, Production.mirror, Shape.ofForm_reverse]

theorem isSome_linearity?_mirror (g : Grammar) :
    (linearity? g.mirror.rules).isSome = (linearity? g.rules).isSome := by
  rw [linearity?_rules_mirror, linearity?_rules]
  split_ifs <;> rfl

/-- Left-linear rules are turned into right-linear ones. -/
theorem linearity?_mirror_of_left {g : Grammar} (h : linearity? g.rules = some .left) :
    linearity? g.mirror.rules = some .right := by
  rw [linearity?_rules] at h
  split_ifs at h with hregular hleft hright
  · rw [linearity?_rules_mirror, if_pos hregular, if_neg hright]
  · cases h

/-- **Mirroring keeps the class.** -/
theorem classify_mirror (g : Grammar) : g.mirror.classify = g.classify := by
  rw [classify_eq, classify_eq, isSome_linearity?_mirror]

end Grammar

namespace Strategy

/-- A search of the mirrored grammar compares the end of forms that the other one leaves alone. -/
theorem forGrammar_mirror_of_leftLinear {g : Grammar}
    (h : forGrammar g g.classify = leftLinear) :
    forGrammar g.mirror g.mirror.classify = rightLinear := by
  rw [Grammar.classify_mirror]
  unfold forGrammar at h ⊢
  split at h
  · split at h
    · next hside => rw [Grammar.linearity?_mirror_of_left hside]
    · cases h
  · cases h

end Strategy

theorem strategy_search (g : Grammar) (cls : GrammarClass) (input : String)
    (limits : SearchLimits) :
    (search g cls input limits).strategy = .forGrammar g cls := by
  rcases SearchRun.levels_cases (Query.lawful_new g cls input limits) .initial (Nat.le_refl _) with
    ⟨s, -, -, hfinding⟩ | ⟨s, -, index, s', -, hfinding⟩
  · rw [search, SearchRun.ofQuery, hfinding]
    rfl
  · rw [search, SearchRun.ofQuery, hfinding]
    rfl

/-! ## The step bound -/

/-- The string read backwards. -/
def reversed (input : String) : String := .ofList input.toList.reverse

@[simp] theorem toList_reversed (input : String) :
    (reversed input).toList = input.toList.reverse := String.toList_ofList

@[simp] theorem reversed_reversed (input : String) : reversed (reversed input) = input := by
  rw [reversed, toList_reversed, List.reverse_reverse, String.ofList_toList]

theorem ShortestYields.hasNullable_mirror (g : Grammar) :
    (ofGrammar g.mirror).hasNullable = (ofGrammar g).hasNullable := by
  rw [Bool.eq_iff_iff, hasNullable_iff, hasNullable_iff]
  refine exists_congr fun c => ?_
  show g.mirror.Derives [Symbol.nonterminal c].reverse [].reverse ↔ g.Derives [.nonterminal c] []
  exact Grammar.derives_mirror

/-- **Both searches have the same step bound.** -/
theorem Query.stepBound_mirror (g : Grammar) (cls cls' : GrammarClass) (input : String)
    (limits : SearchLimits) :
    (Query.new g.mirror cls' (reversed input) limits).stepBound =
      (Query.new g cls input limits).stepBound := by
  have hcount : g.mirror.productions.length = g.productions.length := List.length_map _
  simp only [Query.new, ShortestYields.hasNullable_mirror, toList_reversed, List.length_reverse,
    hcount]

/-! ## The verdicts -/

section

variable {g : Grammar} {cls cls' : GrammarClass} {input : String} {limits : SearchLimits}

/-- What the grammar's search finds, the search of the mirrored grammar finds in no more steps. -/
theorem found_mirror_of_search (cls' : GrammarClass) {d : Derivation}
    (h : (search g cls input limits).derivation = some d)
    (hroom : (search g.mirror cls' (reversed input) limits).effort.stateLimitHit = false) :
    ∃ d', (search g.mirror cls' (reversed input) limits).derivation = some d' ∧
      d'.length ≤ d.length := by
  have hderives : g.mirror.DerivesIn d.length g.mirror.startForm
      ((reversed input).toList.map Symbol.terminal) := by
    rw [toList_reversed, List.map_reverse]
    exact (derivesIn_of_search h).mirror
  have hbound : ∀ b ∈ (Query.new g.mirror cls' (reversed input) limits).stepBound,
      d.length ≤ b := by
    rw [Query.stepBound_mirror g cls]
    exact length_le_of_search h
  rcases found_or_stateLimitHit hderives hbound with hfound | hhit
  · exact hfound
  · rw [hroom] at hhit
    cases hhit

/-- **The verdicts are the same,** whatever classes the grammars are taken to have. -/
theorem length_derivation_mirror
    (hroom : (search g cls input limits).effort.stateLimitHit = false)
    (hroom' : (search g.mirror cls' (reversed input) limits).effort.stateLimitHit = false) :
    (search g.mirror cls' (reversed input) limits).derivation.map Derivation.length =
      (search g cls input limits).derivation.map Derivation.length := by
  -- Mirrored again, the grammar and the string are the given ones.
  have hback : ∀ {d' : Derivation},
      (search g.mirror cls' (reversed input) limits).derivation = some d' →
        ∃ d, (search g cls input limits).derivation = some d ∧ d.length ≤ d'.length := by
    intro d' hd'
    have hfound := found_mirror_of_search cls hd'
    rw [Grammar.mirror_mirror, reversed_reversed] at hfound
    exact hfound hroom
  cases hd : (search g cls input limits).derivation with
  | some d =>
    obtain ⟨d', hd', hle⟩ := found_mirror_of_search cls' hd hroom'
    obtain ⟨e, he, hge⟩ := hback hd'
    obtain rfl : d = e := Option.some.inj (hd.symm.trans he)
    rw [hd', Option.map_some, Option.map_some, Nat.le_antisymm hle hge]
  | none =>
    cases hd' : (search g.mirror cls' (reversed input) limits).derivation with
    | some d' =>
      obtain ⟨d, hsome, -⟩ := hback hd'
      rw [hd] at hsome
      cases hsome
    | none => rfl

end

/-- **Mirror symmetry.** A grammar and its mirror image are of the same class; a left-linear one
is searched from the other end when it is mirrored. If neither search runs out of room, they give
the same verdict on a string and on the string read backwards, by derivations that are equally
long. -/
theorem search_mirrored (g : Grammar) (input : String) (limits : SearchLimits) :
    g.mirror.classify = g.classify ∧
    ((search g g.classify input limits).strategy = .leftLinear →
      (search g.mirror g.mirror.classify (reversed input) limits).strategy = .rightLinear) ∧
    ((search g.mirror g.mirror.classify (reversed input) limits).strategy = .general ↔
      (search g g.classify input limits).strategy = .general) ∧
    ((search g g.classify input limits).effort.stateLimitHit = false →
      (search g.mirror g.mirror.classify (reversed input) limits).effort.stateLimitHit = false →
        (search g.mirror g.mirror.classify (reversed input) limits).belongs =
            (search g g.classify input limits).belongs ∧
          (search g.mirror g.mirror.classify (reversed input) limits).derivation.map
              Derivation.length =
            (search g g.classify input limits).derivation.map Derivation.length) := by
  refine ⟨g.classify_mirror, ?_, ?_, ?_⟩
  · rw [strategy_search, strategy_search]
    exact Strategy.forGrammar_mirror_of_leftLinear
  · rw [strategy_search, strategy_search, Strategy.forGrammar_eq_general_iff,
      Strategy.forGrammar_eq_general_iff, g.classify_mirror]
  · intro hroom hroom'
    have hlength := length_derivation_mirror hroom hroom'
    refine ⟨?_, hlength⟩
    have hsome := congrArg Option.isSome hlength
    rwa [Option.isSome_map, Option.isSome_map] at hsome

/-- The grammar `S → Sa | Tb | ε`, `T → Tc | c`, whose nonterminals stand in front. -/
def frontHeavy : Grammar :=
  { nonterminals := .ofList ['S', 'T']
    terminals := .ofList ['a', 'b', 'c']
    start := 'S'
    productions :=
      [⟨'S', [.nonterminal 'S', .terminal 'a']⟩, ⟨'S', [.nonterminal 'T', .terminal 'b']⟩,
        ⟨'S', []⟩, ⟨'T', [.nonterminal 'T', .terminal 'c']⟩, ⟨'T', [.terminal 'c']⟩] }

/-- The left-linear search of this grammar finds `ccba` and misses `ca`, the right-linear one of its
mirror image finds `abcc`, also in four steps, and misses `ac`. -/
theorem search_mirrored_frontHeavy :
    (search frontHeavy .regular "ccba" {}).strategy = .leftLinear ∧
    (search frontHeavy.mirror .regular "abcc" {}).strategy = .rightLinear ∧
    (search frontHeavy.mirror .regular "abcc" {}).derivation.map Derivation.length = some 4 ∧
    (search frontHeavy.mirror .regular "ac" {}).belongs = false := by
  have hclass : frontHeavy.classify = .regular := by decide
  have hleft : (search frontHeavy .regular "ccba" {}).strategy = .leftLinear := by decide +kernel
  obtain ⟨hsame, hright, -, hverdict⟩ := search_mirrored frontHeavy "ccba" {}
  obtain ⟨-, -, -, hverdict'⟩ := search_mirrored frontHeavy "ca" {}
  rw [hsame, hclass] at hright hverdict hverdict'
  have hlength := (hverdict (by decide +kernel) (by decide +kernel)).2
  have hbelongs := (hverdict' (by decide +kernel) (by decide +kernel)).1
  refine ⟨hleft, hright hleft, hlength.trans ?_, hbelongs.trans ?_⟩
  · decide +kernel
  · decide +kernel

end PhraseStructure
