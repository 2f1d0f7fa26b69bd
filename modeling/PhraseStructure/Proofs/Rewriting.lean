import PhraseStructure.Rewriting

/-!
# Rewriting in parts

A form is rewritten part by part: what becomes of `a ++ b` is what becomes of `a` followed by what
becomes of `b`, and the steps of the two parts add up. So the order in which nonterminals are
rewritten does not matter.

* `DerivesIn.split` takes a derivation of a form apart.
* `DerivesIn.leftmost_first`: a derivation of a terminal form can begin at the leftmost
  nonterminal, without becoming longer.
-/

namespace PhraseStructure

namespace Form

@[simp] theorem isTerminal_nil : isTerminal [] = true := rfl

@[simp] theorem isTerminal_append (a b : Form) :
    isTerminal (a ++ b) = (isTerminal a && isTerminal b) := by
  simp [isTerminal]

@[simp] theorem isTerminal_map_terminal (w : List Char) :
    isTerminal (w.map Symbol.terminal) = true := by
  simp [isTerminal, Symbol.isTerminal]

@[simp] theorem isTerminal_nonterminal_cons (c : Char) (rest : Form) :
    isTerminal (.nonterminal c :: rest) = false := by
  simp [isTerminal, Symbol.isTerminal]

@[simp] theorem isTerminal_terminal_cons (c : Char) (rest : Form) :
    isTerminal (.terminal c :: rest) = isTerminal rest := by
  simp [isTerminal, Symbol.isTerminal]

@[simp] theorem chars_map_terminal (w : List Char) : chars (w.map Symbol.terminal) = w := by
  simp [chars, Function.comp_def]

theorem map_terminal_chars {form : Form} (h : form.isTerminal = true) :
    form.chars.map Symbol.terminal = form := by
  induction form with
  | nil => rfl
  | cons s rest ih =>
    cases s with
    | nonterminal c => simp at h
    | terminal c =>
      rw [isTerminal_terminal_cons] at h
      simpa [chars] using ih h

end Form

namespace Grammar

variable {g : Grammar}

/-! ## One step -/

theorem Rewrites.append_left {a b : Form} (u : Form) (h : g.Rewrites a b) :
    g.Rewrites (u ++ a) (u ++ b) := by
  obtain ⟨p, hp, left, right, rfl, rfl⟩ := h
  exact ⟨p, hp, u ++ left, right, by simp, by simp⟩

theorem Rewrites.append_right {a b : Form} (v : Form) (h : g.Rewrites a b) :
    g.Rewrites (a ++ v) (b ++ v) := by
  obtain ⟨p, hp, left, right, rfl, rfl⟩ := h
  exact ⟨p, hp, left, right ++ v, by simp, by simp⟩

/-- A step in `a ++ b` is a step in `a` or a step in `b`. -/
theorem Rewrites.append_cases {a b c : Form} (h : g.Rewrites (a ++ b) c) :
    (∃ a', g.Rewrites a a' ∧ c = a' ++ b) ∨ ∃ b', g.Rewrites b b' ∧ c = a ++ b' := by
  obtain ⟨p, hp, left, right, hab, rfl⟩ := h
  rcases List.append_eq_append_iff.1 hab with ⟨mid, rfl, rfl⟩ | ⟨mid, rfl, hmid⟩
  · exact .inr ⟨mid ++ p.rhs ++ right, ⟨p, hp, mid, right, rfl, rfl⟩, by simp⟩
  · cases mid with
    | nil =>
      rw [List.nil_append] at hmid
      subst hmid
      exact .inr ⟨p.rhs ++ right, ⟨p, hp, [], right, rfl, rfl⟩, by simp⟩
    | cons s rest =>
      obtain ⟨rfl, rfl⟩ := List.cons.inj hmid
      exact .inl ⟨left ++ p.rhs ++ rest, ⟨p, hp, left, rest, rfl, rfl⟩, by simp⟩

theorem rewrites_singleton {c : Char} {form : Form} :
    g.Rewrites [.nonterminal c] form ↔ ∃ p ∈ g.productions, p.lhs = c ∧ form = p.rhs := by
  constructor
  · rintro ⟨p, hp, left, right, hc, rfl⟩
    cases left with
    | nil =>
      obtain ⟨hs, hr⟩ := List.cons.inj hc
      obtain rfl := Symbol.nonterminal.inj hs
      exact ⟨p, hp, rfl, by simp [← hr]⟩
    | cons s rest => simp at hc
  · rintro ⟨p, hp, rfl, rfl⟩
    exact ⟨p, hp, [], [], rfl, by simp⟩

theorem Rewrites.not_isTerminal {a b : Form} (h : g.Rewrites a b) : a.isTerminal = false := by
  obtain ⟨p, -, left, right, rfl, -⟩ := h
  simp

/-! ## Many steps -/

theorem DerivesIn.trans {n m : Nat} {a b c : Form} (h : g.DerivesIn n a b)
    (h' : g.DerivesIn m b c) : g.DerivesIn (n + m) a c := by
  induction h with
  | refl form => simpa using h'
  | step hrw _ ih =>
    have := DerivesIn.step hrw (ih h')
    rwa [Nat.add_right_comm] at this

/-- What every step keeps, every derivation keeps. -/
theorem DerivesIn.keeps {P : Form → Prop}
    (hstep : ∀ before after, g.Rewrites before after → P before → P after) {n : Nat} {a b : Form}
    (h : g.DerivesIn n a b) (ha : P a) : P b := by
  induction h with
  | refl form => exact ha
  | step hrw _ ih => exact ih (hstep _ _ hrw ha)

/-- More productions derive no less. -/
theorem DerivesIn.mono {g' : Grammar} (hsub : g.productions ⊆ g'.productions) {n : Nat}
    {a b : Form} (h : g.DerivesIn n a b) : g'.DerivesIn n a b := by
  induction h with
  | refl form => exact .refl form
  | step hrw _ ih =>
    obtain ⟨p, hp, hplace⟩ := hrw
    exact .step ⟨p, hsub hp, hplace⟩ ih

theorem DerivesIn.append_left {n : Nat} {a b : Form} (u : Form) (h : g.DerivesIn n a b) :
    g.DerivesIn n (u ++ a) (u ++ b) := by
  induction h with
  | refl form => exact .refl _
  | step hrw _ ih => exact .step (hrw.append_left u) ih

theorem DerivesIn.append_right {n : Nat} {a b : Form} (v : Form) (h : g.DerivesIn n a b) :
    g.DerivesIn n (a ++ v) (b ++ v) := by
  induction h with
  | refl form => exact .refl _
  | step hrw _ ih => exact .step (hrw.append_right v) ih

theorem DerivesIn.append {n m : Nat} {a a' b b' : Form} (ha : g.DerivesIn n a a')
    (hb : g.DerivesIn m b b') : g.DerivesIn (n + m) (a ++ b) (a' ++ b') :=
  (ha.append_right b).trans (hb.append_left a')

/-- **A derivation of `a ++ b` is one of `a` and one of `b`,** which share its steps. -/
theorem DerivesIn.split {n : Nat} {a b c : Form} (h : g.DerivesIn n (a ++ b) c) :
    ∃ n₁ n₂ c₁ c₂, n = n₁ + n₂ ∧ c = c₁ ++ c₂ ∧ g.DerivesIn n₁ a c₁ ∧ g.DerivesIn n₂ b c₂ := by
  generalize hab : a ++ b = ab at h
  induction h generalizing a b with
  | refl form => exact ⟨0, 0, a, b, rfl, hab.symm, .refl a, .refl b⟩
  | step hrw _ ih =>
    subst hab
    rcases hrw.append_cases with ⟨a', ha, rfl⟩ | ⟨b', hb, rfl⟩
    · obtain ⟨n₁, n₂, c₁, c₂, rfl, rfl, h₁, h₂⟩ := ih rfl
      exact ⟨n₁ + 1, n₂, c₁, c₂, by omega, rfl, .step ha h₁, h₂⟩
    · obtain ⟨n₁, n₂, c₁, c₂, rfl, rfl, h₁, h₂⟩ := ih rfl
      exact ⟨n₁, n₂ + 1, c₁, c₂, by omega, rfl, h₁, .step hb h₂⟩

theorem DerivesIn.split_word {n : Nat} {a b : Form} {w : List Char}
    (h : g.DerivesIn n (a ++ b) (w.map Symbol.terminal)) :
    ∃ n₁ n₂ w₁ w₂, n = n₁ + n₂ ∧ w = w₁ ++ w₂ ∧ g.DerivesIn n₁ a (w₁.map Symbol.terminal) ∧
      g.DerivesIn n₂ b (w₂.map Symbol.terminal) := by
  obtain ⟨n₁, n₂, c₁, c₂, rfl, hw, h₁, h₂⟩ := h.split
  obtain ⟨w₁, w₂, rfl, rfl, rfl⟩ := List.map_eq_append_iff.1 hw
  exact ⟨n₁, n₂, w₁, w₂, rfl, rfl, h₁, h₂⟩

theorem DerivesIn.of_isTerminal {n : Nat} {a c : Form} (ha : a.isTerminal = true)
    (h : g.DerivesIn n a c) : n = 0 ∧ c = a := by
  cases h with
  | refl => exact ⟨rfl, rfl⟩
  | step hrw _ =>
    have := hrw.not_isTerminal
    rw [ha] at this
    cases this

/-- A nonterminal that becomes a terminal form first becomes a right-hand side. -/
theorem DerivesIn.nonterminal_cases {n : Nat} {c : Char} {form : Form}
    (hform : form.isTerminal = true) (h : g.DerivesIn n [.nonterminal c] form) :
    ∃ p ∈ g.productions, p.lhs = c ∧ ∃ m, n = m + 1 ∧ g.DerivesIn m p.rhs form := by
  cases h with
  | refl => simp at hform
  | @step m _ _ _ hrw hrest =>
    obtain ⟨p, hp, hlhs, rfl⟩ := rewrites_singleton.1 hrw
    exact ⟨p, hp, hlhs, m, rfl, hrest⟩

/-- **The leftmost nonterminal can be rewritten first.** -/
theorem DerivesIn.leftmost_first {n : Nat} {left right form : Form} {c : Char}
    (hleft : left.isTerminal = true) (hform : form.isTerminal = true)
    (h : g.DerivesIn n (left ++ .nonterminal c :: right) form) :
    ∃ p ∈ g.productions, p.lhs = c ∧ ∃ m, n = m + 1 ∧
      g.DerivesIn m (left ++ p.rhs ++ right) form := by
  obtain ⟨n₁, n₂, f₁, f₂, rfl, rfl, h₁, h₂⟩ := h.split
  obtain ⟨rfl, rfl⟩ := h₁.of_isTerminal hleft
  obtain ⟨n₃, n₄, f₃, f₄, rfl, rfl, h₃, h₄⟩ := DerivesIn.split (a := [.nonterminal c]) h₂
  have hf₃ : f₃.isTerminal = true := by
    simp only [Form.isTerminal_append, Bool.and_eq_true] at hform
    exact hform.2.1
  obtain ⟨p, hp, hlhs, m, rfl, hm⟩ := h₃.nonterminal_cases hf₃
  refine ⟨p, hp, hlhs, m + n₄, by omega, ?_⟩
  simpa using (hm.append h₄).append_left f₁

end Grammar

end PhraseStructure
