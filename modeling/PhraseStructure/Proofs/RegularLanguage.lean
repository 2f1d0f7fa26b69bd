import Mathlib.Computability.NFA
import Mathlib.Data.Fintype.Option
import PhraseStructure.Proofs.Exactness
import PhraseStructure.Proofs.Mirror

/-!
# Regular grammars

A right-linear grammar works like an automaton: a form consists of the terminals written so far and
at most one nonterminal after them, which is the state. Each production writes one terminal and
goes over to the next state, or ends. A left-linear grammar is the mirror image of a right-linear
one. So what a grammar called regular generates is a regular language.

* `IsRightLinear.accepts_eq`: the automaton of a right-linear grammar accepts what it generates.
* `regular_language`: the label is right, for the forms and for the language.
-/

namespace PhraseStructure

/-! ## The shape of the rules -/

namespace Grammar

/-- What is left to be written in a state: the nonterminal that it stands for, or nothing. -/
def rest : Option Char → Form
  | some c => [.nonterminal c]
  | none => []

/-- Every right-hand side is empty, or a terminal that at most one nonterminal follows. -/
def IsRightLinear (g : Grammar) : Prop :=
  ∀ p ∈ g.productions, p.rhs = [] ∨ ∃ a state, p.rhs = .terminal a :: rest state

variable {g : Grammar}

theorem isRightLinear_of_linearity? (h : linearity? g.rules = some .right) : g.IsRightLinear := by
  intro p hp
  obtain ⟨hother, hleft, -⟩ := shape_of_linearity? h hp
  rcases shape_cases hother with hnil | ⟨a, ha⟩ | ⟨a, c, hac, -⟩ | ⟨a, c, -, hshape⟩
  · exact .inl hnil
  · exact .inr ⟨a, none, ha⟩
  · exact .inr ⟨a, some c, hac⟩
  · exact absurd hshape (hleft rfl)

theorem isRightLinear_mirror_of_linearity? (h : linearity? g.rules = some .left) :
    g.mirror.IsRightLinear := by
  intro p hp
  obtain ⟨hother, -, hright⟩ := shape_of_linearity? h (mem_productions_mirror.1 hp)
  have hrhs : p.rhs = p.mirror.rhs.reverse := by simp [Production.mirror]
  rw [hrhs]
  rcases shape_cases hother with hnil | ⟨a, ha⟩ | ⟨a, c, -, hshape⟩ | ⟨a, c, hac, -⟩
  · exact .inl (by rw [hnil]; rfl)
  · exact .inr ⟨a, none, by rw [ha]; rfl⟩
  · exact absurd hshape (hright rfl)
  · exact .inr ⟨a, some c, by rw [hac]; rfl⟩

/-! ## Forms -/

theorem nonterminalCount_le_of_derives (h : g.classify = .regular) {form : Form}
    (hform : g.Derives g.startForm form) : form.nonterminalCount ≤ 1 := by
  obtain ⟨n, hn⟩ := hform
  have hlinear := isLinear_of_classify h
  refine hn.keeps (P := fun form => form.nonterminalCount ≤ 1) ?_ (Nat.le_refl 1)
  intro before after hrw hbefore
  exact (hlinear.nonterminalCount_le hrw).trans hbefore

/-- The form consists of terminals and at most one nonterminal after them. -/
def EndsOpen (form : Form) : Prop :=
  ∃ (w : List Char) (state : Option Char), form = w.map Symbol.terminal ++ rest state

theorem IsRightLinear.endsOpen_of_rewrites (hg : g.IsRightLinear) {before after : Form}
    (h : g.Rewrites before after) (hbefore : EndsOpen before) : EndsOpen after := by
  obtain ⟨w, state, rfl⟩ := hbefore
  rcases h.append_cases with ⟨a', hw, -⟩ | ⟨b', hstate, rfl⟩
  · -- The terminals cannot be rewritten.
    have hfalse := hw.not_isTerminal
    rw [Form.isTerminal_map_terminal] at hfalse
    cases hfalse
  · cases state with
    | none =>
      have hfalse := hstate.not_isTerminal
      cases hfalse
    | some c =>
      obtain ⟨p, hp, -, rfl⟩ := rewrites_singleton.1 hstate
      rcases hg p hp with hnil | ⟨a, state, ha⟩
      · exact ⟨w, none, by rw [hnil]; rfl⟩
      · exact ⟨w ++ [a], state, by rw [ha]; simp⟩

/-- **A right-linear grammar only ever rewrites the last symbol.** -/
theorem IsRightLinear.endsOpen (hg : g.IsRightLinear) {form : Form}
    (h : g.Derives g.startForm form) : EndsOpen form := by
  obtain ⟨n, hn⟩ := h
  refine hn.keeps (fun before after => hg.endsOpen_of_rewrites) ?_
  exact ⟨[], some g.start, rfl⟩

theorem EndsOpen.getLast?_eq {form : Form} (h : EndsOpen form) {c : Char}
    (hc : .nonterminal c ∈ form) : form.getLast? = some (.nonterminal c) := by
  obtain ⟨w, state, rfl⟩ := h
  cases state with
  | none => simp [rest] at hc
  | some d =>
    have hd : c = d := by simpa [rest] using hc
    simp [rest, hd]

end Grammar

/-- The symbol of a form at the side where regular rules have their nonterminal. -/
def Linearity.outermost : Linearity → Form → Option Symbol
  | right, form => form.getLast?
  | left, form => form.head?

namespace Grammar

variable {g : Grammar}

/-- **The nonterminal of a form stands at the side that the rules have it on.** -/
theorem outermost_eq {side : Linearity} (h : linearity? g.rules = some side) {form : Form}
    (hform : g.Derives g.startForm form) {c : Char} (hc : .nonterminal c ∈ form) :
    side.outermost form = some (.nonterminal c) := by
  cases side with
  | right => exact ((isRightLinear_of_linearity? h).endsOpen hform).getLast?_eq hc
  | left =>
    have hmirror : g.mirror.Derives g.mirror.startForm form.reverse := derives_mirror.2 hform
    have hlast := ((isRightLinear_mirror_of_linearity? h).endsOpen hmirror).getLast?_eq
      (List.mem_reverse.2 hc)
    rwa [List.getLast?_reverse] at hlast

/-! ## The automaton -/

/-- The automaton of a right-linear grammar. Its states are the nonterminals that may stand at the
end of a form, and the state in which none does. -/
def automaton (g : Grammar) : NFA Char (Option Char) where
  step state a := { state' | ∃ p ∈ g.productions, state = some p.lhs ∧
    p.rhs = .terminal a :: rest state' }
  start := {some g.start}
  accept := { state | state = none ∨ ∃ p ∈ g.productions, state = some p.lhs ∧ p.rhs = [] }

/-- The strings that the grammar generates. -/
def language (g : Grammar) : Language Char := { w | g.Generates w }

theorem derives_rest_some {c : Char} {w : List Char} :
    g.Derives (rest (some c)) (w.map Symbol.terminal) ↔
      ∃ p ∈ g.productions, p.lhs = c ∧ g.Derives p.rhs (w.map Symbol.terminal) := by
  constructor
  · rintro ⟨n, hn⟩
    obtain ⟨p, hp, hlhs, m, -, hm⟩ := hn.nonterminal_cases (Form.isTerminal_map_terminal w)
    exact ⟨p, hp, hlhs, m, hm⟩
  · rintro ⟨p, hp, rfl, n, hn⟩
    exact ⟨n + 1, .step (rewrites_singleton.2 ⟨p, hp, rfl, rfl⟩) hn⟩

theorem derives_nil {form : Form} : g.Derives [] form ↔ form = [] := by
  constructor
  · rintro ⟨n, hn⟩
    exact (hn.of_isTerminal rfl).2
  · rintro rfl
    exact ⟨0, .refl _⟩

theorem derives_terminal_cons {a : Char} {form : Form} {w : List Char} :
    g.Derives (.terminal a :: form) (w.map Symbol.terminal) ↔
      ∃ v, w = a :: v ∧ g.Derives form (v.map Symbol.terminal) := by
  constructor
  · rintro ⟨n, hn⟩
    obtain ⟨n₁, n₂, u, v, -, rfl, hu, hv⟩ := DerivesIn.split_word (a := [.terminal a]) hn
    obtain ⟨-, hmap⟩ := hu.of_isTerminal rfl
    have hsingle : u = [a] := by
      have hchars := congrArg Form.chars hmap
      rwa [Form.chars_map_terminal] at hchars
    exact ⟨v, by rw [hsingle]; rfl, n₂, hv⟩
  · rintro ⟨v, rfl, n, hn⟩
    exact ⟨n, hn.append_left [.terminal a]⟩

theorem mem_acceptsFrom_iff {S : Set (Option Char)} {w : List Char} :
    w ∈ g.automaton.acceptsFrom S ↔ ∃ state ∈ S, w ∈ g.automaton.acceptsFrom {state} := by
  simp only [NFA.mem_acceptsFrom]
  constructor
  · rintro ⟨last, hlast, hw⟩
    obtain ⟨state, hstate, hw⟩ := NFA.mem_evalFrom_iff_exists.1 hw
    exact ⟨state, hstate, last, hlast, hw⟩
  · rintro ⟨state, hstate, last, hlast, hw⟩
    exact ⟨last, hlast, NFA.mem_evalFrom_iff_exists.2 ⟨state, hstate, hw⟩⟩

/-- **From each state the automaton accepts what is left to be derived.** -/
theorem IsRightLinear.mem_acceptsFrom (hg : g.IsRightLinear) {state : Option Char}
    {w : List Char} :
    w ∈ g.automaton.acceptsFrom {state} ↔ g.Derives (rest state) (w.map Symbol.terminal) := by
  induction w generalizing state with
  | nil =>
    rw [NFA.nil_mem_acceptsFrom]
    simp only [Set.mem_singleton_iff, exists_eq_left, automaton]
    cases state with
    | none => simp [rest, derives_nil]
    | some c =>
      rw [derives_rest_some]
      constructor
      · rintro (hnone | ⟨p, hp, hlhs, hnil⟩)
        · cases hnone
        · exact ⟨p, hp, (Option.some.inj hlhs).symm, by rw [hnil]; exact derives_nil.2 rfl⟩
      · rintro ⟨p, hp, rfl, hrhs⟩
        rcases hg p hp with hnil | ⟨a, state, ha⟩
        · exact .inr ⟨p, hp, rfl, hnil⟩
        · -- A right-hand side with a terminal does not derive the empty string.
          rw [ha] at hrhs
          obtain ⟨v, hv, -⟩ := derives_terminal_cons.1 hrhs
          cases hv
  | cons a w ih =>
    rw [NFA.cons_mem_acceptsFrom, NFA.stepSet_singleton, mem_acceptsFrom_iff]
    simp only [ih]
    cases state with
    | none =>
      constructor
      · rintro ⟨state', ⟨p, -, hlhs, -⟩, -⟩
        cases hlhs
      · intro h
        cases derives_nil.1 h
    | some c =>
      rw [derives_rest_some]
      constructor
      · rintro ⟨state', ⟨p, hp, hlhs, hrhs⟩, hw⟩
        refine ⟨p, hp, (Option.some.inj hlhs).symm, ?_⟩
        rw [hrhs]
        exact derives_terminal_cons.2 ⟨w, rfl, hw⟩
      · rintro ⟨p, hp, rfl, hw⟩
        rcases hg p hp with hnil | ⟨b, state', hb⟩
        · rw [hnil] at hw
          cases derives_nil.1 hw
        · rw [hb] at hw
          obtain ⟨v, hv, hrest⟩ := derives_terminal_cons.1 hw
          obtain ⟨rfl, rfl⟩ := List.cons.inj hv
          exact ⟨state', ⟨p, hp, rfl, hb⟩, hrest⟩

theorem IsRightLinear.accepts_eq (hg : g.IsRightLinear) : g.automaton.accepts = g.language := by
  ext w
  exact hg.mem_acceptsFrom

theorem finite_char : Finite Char :=
  Finite.of_injective (fun c : Char => (⟨c.val.toNat, c.val.toNat_lt⟩ : Fin (2 ^ 32))) (by
    intro c d h
    have hval : c.val.toNat = d.val.toNat := congrArg Fin.val h
    exact Char.toNat_inj.1 hval)

theorem IsRightLinear.isRegular (hg : g.IsRightLinear) : g.language.IsRegular := by
  have := finite_char
  have := Fintype.ofFinite Char
  refine ⟨Set (Option Char), inferInstance, g.automaton.toDFA, ?_⟩
  rw [NFA.toDFA_correct, hg.accepts_eq]

theorem language_mirror (g : Grammar) : g.mirror.language = g.language.reverse := by
  ext w
  have h := generates_mirror (g := g) (w := w.reverse)
  rw [List.reverse_reverse] at h
  exact h

theorem isRegular_of_linearity? {side : Linearity} (h : linearity? g.rules = some side) :
    g.language.IsRegular := by
  cases side with
  | right => exact (isRightLinear_of_linearity? h).isRegular
  | left =>
    have hmirror := (isRightLinear_mirror_of_linearity? h).isRegular
    rw [language_mirror] at hmirror
    exact hmirror.of_reverse

end Grammar

/-- **The label of a regular grammar is right.** Its rules have their nonterminals on one side;
every form that it derives has at most one nonterminal, at that side; and a finite automaton
accepts exactly the strings that it generates. -/
theorem regular_language {g : Grammar} (h : g.classify = .regular) :
    ∃ side, linearity? g.rules = some side ∧
      (∀ form, g.Derives g.startForm form → form.nonterminalCount ≤ 1 ∧
        ∀ c, .nonterminal c ∈ form → side.outermost form = some (.nonterminal c)) ∧
      g.language.IsRegular := by
  obtain ⟨side, hside⟩ := Grammar.linearity?_of_classify h
  refine ⟨side, hside, ?_, Grammar.isRegular_of_linearity? hside⟩
  intro form hform
  exact ⟨Grammar.nonterminalCount_le_of_derives h hform, fun c => Grammar.outermost_eq hside hform⟩

/-- The grammar `S → Sa | Tb | ε`, `T → Ta`, in which nonterminals stand on the left, one of them
can vanish, and the other derives no string. -/
def leaning : Grammar :=
  { nonterminals := .ofList ['S', 'T']
    terminals := .ofList ['a', 'b']
    start := 'S'
    productions :=
      [⟨'S', [.nonterminal 'S', .terminal 'a']⟩, ⟨'S', [.nonterminal 'T', .terminal 'b']⟩,
        ⟨'S', []⟩, ⟨'T', [.nonterminal 'T', .terminal 'a']⟩] }

/-- What this grammar generates is regular, and its forms have their nonterminal in front. -/
theorem regular_language_leaning :
    leaning.classify = .regular ∧ leaning.language.IsRegular ∧
      ∀ form, leaning.Derives leaning.startForm form → form.nonterminalCount ≤ 1 ∧
        ∀ c, .nonterminal c ∈ form → form.head? = some (.nonterminal c) := by
  have hclass : leaning.classify = .regular := by decide
  obtain ⟨side, hside, hforms, hregular⟩ := regular_language hclass
  have hleft : linearity? leaning.rules = some .left := by decide
  obtain rfl : Linearity.left = side := Option.some.inj (hleft.symm.trans hside)
  exact ⟨hclass, hregular, hforms⟩

end PhraseStructure
