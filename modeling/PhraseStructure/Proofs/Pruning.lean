import PhraseStructure.Proofs.ShortestYield
import PhraseStructure.Search.Pruning

/-!
# Pruning loses nothing

A form that fails the tests of a sieve fails them for ever: rewriting adds terminals, settles more
of both ends and never lowers the shortest yield. The wanted string itself passes, so every form
that can still become it passes too. This holds for every strategy, whatever the grammar.

* `passes_of_rewrites`: whatever becomes a passing form passes.
* `passes_of_derives_target`: whatever becomes the wanted string passes.
* `pruned_for_good`: a form that is left out of a search becomes nothing that would be kept.
-/

namespace PhraseStructure

theorem Strategy.forGrammar_eq_general_iff {g : Grammar} {cls : GrammarClass} :
    forGrammar g cls = general ↔ cls ≠ .regular := by
  unfold forGrammar
  split
  · split <;> simp
  · next hcls => simpa using hcls

namespace Form

@[simp] theorem leading_terminal_cons (c : Char) (rest : Form) :
    leading (.terminal c :: rest) = c :: leading rest := rfl

@[simp] theorem leading_nonterminal_cons (c : Char) (rest : Form) :
    leading (.nonterminal c :: rest) = [] := rfl

/-- The leading terminals of a form stay when what follows them is rewritten. -/
theorem leading_isPrefix (left right rest : Form) (c : Char) :
    leading (left ++ .nonterminal c :: right) <+: leading (left ++ rest) := by
  induction left with
  | nil => simp
  | cons s left ih =>
    cases s with
    | nonterminal d => simp
    | terminal d => simpa using ih

@[simp] theorem leading_map_terminal (w : List Char) : leading (w.map Symbol.terminal) = w := by
  induction w with
  | nil => rfl
  | cons c rest ih => simp [ih]

theorem terminalCount_append (a b : Form) :
    terminalCount (a ++ b) = terminalCount a + terminalCount b :=
  List.countP_append

end Form

namespace Sieve

variable {g : Grammar} {p : Sieve} {before after : Form}

theorem terminalCount_le (h : g.Rewrites before after) :
    before.terminalCount ≤ after.terminalCount := by
  obtain ⟨q, -, left, right, rfl, rfl⟩ := h
  have hcons : Form.terminalCount (.nonterminal q.lhs :: right) = Form.terminalCount right := by
    simp [Form.terminalCount, Symbol.isTerminal]
  simp only [Form.terminalCount_append, hcons]
  omega

theorem startFits_of_rewrites (h : g.Rewrites before after) (hafter : p.startFits after = true) :
    p.startFits before = true := by
  obtain ⟨q, -, left, right, rfl, rfl⟩ := h
  simp only [startFits, List.isPrefixOf_iff_prefix] at hafter ⊢
  rw [List.append_assoc] at hafter
  exact (Form.leading_isPrefix left right _ q.lhs).trans hafter

theorem endFits_of_rewrites (h : g.Rewrites before after) (hafter : p.endFits after = true) :
    p.endFits before = true := by
  obtain ⟨q, -, left, right, rfl, rfl⟩ := h
  simp only [endFits, List.isPrefixOf_iff_prefix, List.reverse_append, List.reverse_cons,
    List.append_assoc, List.singleton_append] at hafter ⊢
  exact (Form.leading_isPrefix right.reverse left.reverse _ q.lhs).trans hafter

theorem yieldFits_of_rewrites (hp : p.yields = .ofGrammar g) (h : g.Rewrites before after)
    (hafter : p.yieldFits after = true) : p.yieldFits before = true := by
  unfold yieldFits at hafter ⊢
  rw [hp] at hafter ⊢
  split at hafter
  · next n hn =>
    -- The shortest string of the later form is one of the earlier form.
    obtain ⟨w, ⟨k, hk⟩, rfl⟩ := (ShortestYields.sound_ofGrammar g).ofForm? n hn
    obtain ⟨m, hm, hle⟩ := ShortestYields.exists_ofForm?_le_of_derives ⟨k + 1, .step h hk⟩
    rw [Option.mem_def.1 hm]
    simp only [decide_eq_true_eq] at hafter ⊢
    omega
  · cases hafter

/-- **A form that becomes a passing form passes.** -/
theorem passes_of_rewrites (hp : p.yields = .ofGrammar g) (h : g.Rewrites before after)
    (hafter : p.passes after = true) : p.passes before = true := by
  simp only [passes, Bool.and_eq_true, Bool.or_eq_true, decide_eq_true_eq] at hafter ⊢
  obtain ⟨⟨⟨hcount, hstart⟩, hend⟩, hyield⟩ := hafter
  refine ⟨⟨⟨(terminalCount_le h).trans hcount, ?_⟩, ?_⟩, ?_⟩
  · exact hstart.imp_right (startFits_of_rewrites h)
  · exact hend.imp_right (endFits_of_rewrites h)
  · exact hyield.imp_right (yieldFits_of_rewrites hp h)

theorem passes_of_derives (hp : p.yields = .ofGrammar g) (h : g.Derives before after)
    (hafter : p.passes after = true) : p.passes before = true := by
  obtain ⟨n, hn⟩ := h
  induction hn with
  | refl => exact hafter
  | step hrw _ ih => exact passes_of_rewrites hp hrw (ih hafter)

theorem passes_target (hp : p.yields = .ofGrammar g) :
    p.passes (p.target.map Symbol.terminal) = true := by
  have hcount : Form.terminalCount (p.target.map Symbol.terminal) ≤ p.target.length := by
    refine List.countP_le_length.trans ?_
    rw [List.length_map]
  have hstart : p.startFits (p.target.map Symbol.terminal) = true := by
    simp [startFits, List.isPrefixOf_iff_prefix]
  have hend : p.endFits (p.target.map Symbol.terminal) = true := by
    simp only [endFits, List.isPrefixOf_iff_prefix]
    rw [← List.map_reverse, Form.leading_map_terminal]
  have hyield : p.yieldFits (p.target.map Symbol.terminal) = true := by
    obtain ⟨n, hn, hle⟩ := ShortestYields.exists_ofForm?_le_of_derives (g := g)
      ⟨0, .refl (p.target.map Symbol.terminal)⟩
    simp only [yieldFits, hp, Option.mem_def.1 hn, decide_eq_true_eq]
    exact hle.trans (Nat.min_le_left _ _)
  simp [passes, hcount, hstart, hend, hyield]

/-- **A form that can become the wanted string passes.** -/
theorem passes_of_derives_target (hp : p.yields = .ofGrammar g)
    (h : g.Derives before (p.target.map Symbol.terminal)) : p.passes before = true :=
  passes_of_derives hp h (passes_target hp)

/-- **A form that fails the tests is hopeless.** Under every strategy, for every target and whatever
the class of the grammar, all that it becomes by steps at any places fails them too, and none of it
is the target. So a form that can still become the target passes. -/
theorem pruned_for_good (hp : p.yields = .ofGrammar g) (h : g.Derives before after) :
    (p.passes before = false →
      p.passes after = false ∧ after ≠ p.target.map Symbol.terminal) ∧
    (after = p.target.map Symbol.terminal → p.passes before = true) := by
  refine ⟨?_, ?_⟩
  · intro hfails
    have hafter : p.passes after = false := by
      by_contra hpasses
      rw [Bool.not_eq_false] at hpasses
      rw [passes_of_derives hp h hpasses] at hfails
      cases hfails
    refine ⟨hafter, ?_⟩
    rintro rfl
    rw [passes_target hp] at hafter
    cases hafter
  · rintro rfl
    exact passes_of_derives_target hp h

/-- No string that starts with `c` is `b#`, whose second character is no symbol, and this stays so
when `B` vanishes and moves `S` up to the `c`. But `Ac` may become `c`. -/
theorem pruned_for_good_vanishing :
    (⟨.rightLinear, ['b', '#'], .ofGrammar vanishing⟩ : Sieve).passes
        [.terminal 'c', .nonterminal 'B', .nonterminal 'S'] = false ∧
      (⟨.rightLinear, ['b', '#'], .ofGrammar vanishing⟩ : Sieve).passes
        [.terminal 'c', .nonterminal 'S'] = false ∧
      (⟨.general, ['c'], .ofGrammar vanishing⟩ : Sieve).passes
        [.nonterminal 'A', .terminal 'c'] = true := by
  have hfails : (⟨.rightLinear, ['b', '#'], .ofGrammar vanishing⟩ : Sieve).passes
      [.terminal 'c', .nonterminal 'B', .nonterminal 'S'] = false := by decide +kernel
  have hstep : vanishing.Rewrites [.terminal 'c', .nonterminal 'B', .nonterminal 'S']
      [.terminal 'c', .nonterminal 'S'] :=
    ⟨⟨'B', []⟩, by decide, [.terminal 'c'], [.nonterminal 'S'], rfl, rfl⟩
  have hdouble : vanishing.Rewrites [.nonterminal 'A', .terminal 'c']
      [.nonterminal 'B', .nonterminal 'B', .terminal 'c'] :=
    ⟨⟨'A', [.nonterminal 'B', .nonterminal 'B']⟩, by decide, [], [.terminal 'c'], rfl, rfl⟩
  have hfirst : vanishing.Rewrites [.nonterminal 'B', .nonterminal 'B', .terminal 'c']
      [.nonterminal 'B', .terminal 'c'] :=
    ⟨⟨'B', []⟩, by decide, [], [.nonterminal 'B', .terminal 'c'], rfl, rfl⟩
  have hsecond : vanishing.Rewrites [.nonterminal 'B', .terminal 'c'] [.terminal 'c'] :=
    ⟨⟨'B', []⟩, by decide, [], [.terminal 'c'], rfl, rfl⟩
  have hword : vanishing.Derives [.nonterminal 'A', .terminal 'c'] [.terminal 'c'] :=
    ⟨3, .step hdouble (.step hfirst (.step hsecond (.refl _)))⟩
  refine ⟨hfails, ?_, ?_⟩
  · exact ((pruned_for_good rfl ⟨1, .step hstep (.refl _)⟩).1 hfails).1
  · exact (pruned_for_good (p := ⟨.general, ['c'], .ofGrammar vanishing⟩) rfl hword).2 rfl

end Sieve

end PhraseStructure
