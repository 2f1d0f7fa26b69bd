import Mathlib.Data.List.GetD
import PhraseStructure.Proofs.LargerLimits
import PhraseStructure.Sampling

/-!
# What sampling returns

Whatever numbers are drawn, a sampled derivation takes one leftmost step after another, so it is a
leftmost run of the grammar from the symbol it starts at. It is returned only when it is finished,
and given up only for the two reasons that its problem names (`Outcome`). The search follows the
same steps, so it finds every sampled string that its limits leave in reach.

* `choose_mem`, `choose_eq_none_iff`: a choice is one of the offered, and none only if nothing is.
* `walk_outcome`: how a walk ends, from any run on.
* `sampled_found`: what is returned, what the search makes of it, and what a problem means.
-/

namespace PhraseStructure

namespace Grammar

/-- The grammar with another start symbol. -/
def startingAt (g : Grammar) (start : Char) : Grammar := { g with start }

theorem start_startingAt (g : Grammar) (start : Char) :
    (g.startingAt start).start = start := rfl

/-- A form has no leftmost step only if its leftmost nonterminal has no production. -/
theorem lhs_ne_of_leftmostSteps_eq_nil {g : Grammar} {form : Form} {cut : Form.Cut}
    (hcut : form.split? = some cut) (h : g.leftmostSteps form = []) :
    ∀ p ∈ g.productions, p.lhs ≠ cut.head := by
  intro p hp hlhs
  obtain ⟨hform, hbefore⟩ := Form.split?_eq_some hcut
  obtain ⟨step, hstep, -⟩ := exists_leftmostStep hp hbefore cut.after
  rw [hlhs, ← hform, h] at hstep
  cases hstep

/-- A run leads from the start symbol to its last form. -/
theorem LeftmostRun.derives {g : Grammar} {d : Derivation} (hd : g.LeftmostRun d) :
    g.Derives g.startForm d.endForm := by
  induction hd with
  | start => exact ⟨0, .refl _⟩
  | @extend d step _ hmem ih =>
    obtain ⟨n, hn⟩ := ih
    have hstep := rewrites_of_follows (mem_leftmostSteps.1 hmem).1
    rw [Derivation.endForm_extend]
    exact ⟨n + 1, hn.trans (.step hstep (.refl _))⟩

theorem LeftmostRun.start_eq {g : Grammar} {d : Derivation} (hd : g.LeftmostRun d) :
    d.start = g.start :=
  (leftmostRun_iff_moves.1 hd).1

end Grammar

namespace Sampling

variable {σ : Type} (next : σ → UInt32 × σ)

/-! ## Choices -/

theorem drawIndex_lt {n : Nat} (hn : 0 < n) (fuel : Nat) (s : σ) :
    (drawIndex next n fuel s).1 < n := by
  induction fuel generalizing s with
  | zero => exact indexOf_lt _ hn
  | succ fuel ih =>
    simp only [drawIndex]
    split
    · exact indexOf_lt _ hn
    · exact ih _

theorem choose_eq_none_iff {α : Type} {l : List α} {s : σ} : choose next l s = none ↔ l = [] := by
  cases l <;> simp [choose]

theorem choose_mem {α : Type} {l : List α} {s s' : σ} {x : α}
    (h : choose next l s = some (x, s')) : x ∈ l := by
  cases l with
  | nil => cases h
  | cons y rest =>
    have hlt : (drawIndex next (rest.length + 1) drawRange s).1 < (y :: rest).length :=
      drawIndex_lt next (Nat.succ_pos rest.length) drawRange s
    simp only [choose, Option.some.injEq, Prod.mk.injEq] at h
    rw [← h.1, List.getD_eq_getElem _ _ hlt]
    exact List.getElem_mem hlt

/-! ## Walks -/

/-- How sampling from the start symbol of a grammar can end. -/
inductive Outcome (g : Grammar) (maxSteps : Nat) : Except Problem Derivation → Prop where
  /-- A run came to a terminal form within the limit. -/
  | finished {d : Derivation} : g.LeftmostRun d → d.endForm.isTerminal = true →
      d.length ≤ maxSteps → Outcome g maxSteps (.ok d)
  /-- A run came to a form whose leftmost nonterminal has no production. -/
  | stuck {d : Derivation} {cut : Form.Cut} : g.LeftmostRun d → d.endForm.split? = some cut →
      (∀ p ∈ g.productions, p.lhs ≠ cut.head) →
      Outcome g maxSteps (.error (.whole (.noProductions cut.head)))
  /-- The limit was reached, or there was no attempt. -/
  | unfinished : Outcome g maxSteps (.error (.whole (.stepLimit maxSteps)))

variable {g : Grammar} {start : Char} {maxSteps : Nat}

theorem walk_outcome_of_isTerminal {d : Derivation} (hd : (g.startingAt start).LeftmostRun d)
    (hterm : d.endForm.isTerminal = true) (hlen : d.length ≤ maxSteps) (remaining : Nat) (s : σ) :
    Outcome (g.startingAt start) maxSteps
      ((walk next g maxSteps remaining d.endForm d.steps.reverse s).1.map (⟨start, ·⟩)) := by
  have hsteps : (⟨start, d.steps⟩ : Derivation) = d := by
    rw [← Grammar.start_startingAt g start, ← hd.start_eq]
  unfold walk
  simp only [Form.split?_eq_none_iff.2 hterm, Except.map, List.reverse_reverse, hsteps]
  exact .finished hd hterm hlen

/-- **A walk goes on with the run it is given,** as long as the steps it may still take are those
that the run has left. -/
theorem walk_outcome {remaining : Nat} {d : Derivation} (hd : (g.startingAt start).LeftmostRun d)
    (hlen : d.length + remaining = maxSteps) (s : σ) :
    Outcome (g.startingAt start) maxSteps
      ((walk next g maxSteps remaining d.endForm d.steps.reverse s).1.map (⟨start, ·⟩)) := by
  induction remaining generalizing d s with
  | zero =>
    cases hcut : d.endForm.split? with
    | none =>
      exact walk_outcome_of_isTerminal next hd (Form.split?_eq_none_iff.1 hcut) (by omega) _ s
    | some cut =>
      unfold walk
      rw [hcut]
      exact .unfinished
  | succ remaining ih =>
    cases hcut : d.endForm.split? with
    | none =>
      exact walk_outcome_of_isTerminal next hd (Form.split?_eq_none_iff.1 hcut) (by omega) _ s
    | some cut =>
      unfold walk
      cases hchoice : choose next (g.leftmostSteps d.endForm) s with
      | none =>
        have hnil := (choose_eq_none_iff next).1 hchoice
        simp only [hcut]
        exact .stuck hd hcut (Grammar.lhs_ne_of_leftmostSteps_eq_nil hcut hnil)
      | some choice =>
        obtain ⟨step, s'⟩ := choice
        have hstep := choose_mem next hchoice
        have hrest := ih (hd.extend hstep) (by rw [Derivation.length_extend]; omega) s'
        rw [Derivation.endForm_extend] at hrest
        simpa [hcut, Derivation.extend] using hrest

theorem generateFrom_outcome (g : Grammar) (start : Char) (maxSteps : Nat) (s : σ) :
    Outcome (g.startingAt start) maxSteps (generateFrom next g start maxSteps s).1 :=
  walk_outcome next .start (Nat.zero_add maxSteps) s

theorem generate_outcome (g : Grammar) (maxSteps : Nat) (s : σ) :
    Outcome g maxSteps (generate next g maxSteps s).1 :=
  generateFrom_outcome next g g.start maxSteps s

/-- Trying again ends as one of the attempts does. -/
theorem sample_outcome (g : Grammar) (maxSteps attempts : Nat) (s : σ) :
    Outcome g maxSteps (sample next g maxSteps attempts s).1 := by
  induction attempts generalizing s with
  | zero => exact .unfinished
  | succ attempts ih =>
    unfold sample
    split
    · exact ih _
    · exact generate_outcome next g maxSteps s

/-! ## Outcomes -/

/-- The problem is the step limit, or names a nonterminal that has no production although it is the
leftmost one of a form that the start symbol derives. -/
def Explained (g : Grammar) (maxSteps : Nat) (problem : Problem) : Prop :=
  problem = .whole (.stepLimit maxSteps) ∨
    ∃ c, problem = .whole (.noProductions c) ∧ (∀ p ∈ g.productions, p.lhs ≠ c) ∧
      ∃ left right : Form, left.isTerminal = true ∧
        g.Derives g.startForm (left ++ .nonterminal c :: right)

namespace Outcome

theorem of_ok {d : Derivation} (h : Outcome g maxSteps (.ok d)) :
    d.validIn g = true ∧ d.isLeftmost = true ∧ 1 ≤ d.length ∧ d.length ≤ maxSteps := by
  cases h with
  | finished hrun hterm hlen =>
    obtain ⟨hvalid, hleft⟩ := Grammar.leftmostRun_iff.1 ⟨hrun, hterm⟩
    refine ⟨hvalid, hleft, ?_, hlen⟩
    -- Without a step the last form would be the start symbol, which is no terminal form.
    cases hrun with
    | start => cases hterm
    | extend _ _ => rw [Derivation.length_extend]; omega

theorem of_error {problem : Problem} (h : Outcome g maxSteps (.error problem)) :
    Explained g maxSteps problem := by
  cases h with
  | unfinished => exact .inl rfl
  | @stuck d cut hrun hcut hnone =>
    obtain ⟨hform, hbefore⟩ := Form.split?_eq_some hcut
    have hderives := hrun.derives
    rw [hform] at hderives
    exact .inr ⟨cut.head, rfl, hnone, cut.before, cut.after, hbefore, hderives⟩

end Outcome

/-- **Sampled derivations are genuine, and the search finds what they derive.** Whatever numbers are
drawn, a derivation that is returned is valid, leftmost, not empty and within the limit, and a
search that may take as many steps finds its string by a derivation that is no longer, unless it
runs out of room. If none is returned, the problem says why. -/
theorem sampled_found {σ : Type} (next : σ → UInt32 × σ) (g : Grammar) (maxSteps attempts : Nat)
    (s : σ) :
    (∀ d, (generate next g maxSteps s).1 = .ok d ∨
        (sample next g maxSteps attempts s).1 = .ok d →
      d.validIn g = true ∧ d.isLeftmost = true ∧ 1 ≤ d.length ∧ d.length ≤ maxSteps ∧
      ∀ (cls : GrammarClass) (limits : SearchLimits),
        (∀ b, (search g cls d.word limits).effort.stepBound = some b → d.length ≤ b) →
        (∃ e, (search g cls d.word limits).derivation = some e ∧ e.length ≤ d.length) ∨
          (search g cls d.word limits).effort.stateLimitHit = true) ∧
    (∀ start d, (generateFrom next g start maxSteps s).1 = .ok d →
      d.validIn (g.startingAt start) = true ∧ d.isLeftmost = true ∧ 1 ≤ d.length ∧
        d.length ≤ maxSteps) ∧
    (∀ problem, (generate next g maxSteps s).1 = .error problem ∨
        (sample next g maxSteps attempts s).1 = .error problem → Explained g maxSteps problem) ∧
    ∀ start problem, (generateFrom next g start maxSteps s).1 = .error problem →
      Explained (g.startingAt start) maxSteps problem := by
  have hgenerate := generate_outcome next g maxSteps s
  have hsample := sample_outcome next g maxSteps attempts s
  have hfrom := fun start => generateFrom_outcome next g start maxSteps s
  refine ⟨?_, ?_, ?_, ?_⟩
  · intro d hd
    have houtcome : Outcome g maxSteps (.ok d) := by
      rcases hd with hd | hd
      · rwa [hd] at hgenerate
      · rwa [hd] at hsample
    obtain ⟨hvalid, hleft, hpos, hle⟩ := houtcome.of_ok
    refine ⟨hvalid, hleft, hpos, hle, ?_⟩
    intro cls limits hbound
    rw [stepBound_search] at hbound
    exact found_of_validIn hvalid rfl hbound
  · intro start d hd
    have houtcome := hfrom start
    rw [hd] at houtcome
    exact houtcome.of_ok
  · intro problem hproblem
    rcases hproblem with hproblem | hproblem
    · rw [hproblem] at hgenerate
      exact hgenerate.of_error
    · rw [hproblem] at hsample
      exact hsample.of_error
  · intro start problem hproblem
    have houtcome := hfrom start
    rw [hproblem] at houtcome
    exact houtcome.of_error

/-- The first attempt draws `SS` twice and comes to the limit, the second one draws `a`. The search
finds the sampled string within the three steps that it may take. -/
theorem sampled_found_doubling :
    ∃ d, (sample Draws.next doubling 2 2 ⟨[0, 0, 2147483648], 0⟩).1 = .ok d ∧ d.word = "a" ∧
      d.validIn doubling = true ∧ d.isLeftmost = true ∧ 1 ≤ d.length ∧ d.length ≤ 2 ∧
      ∃ e, (search doubling .contextFree "a" ⟨2, some 1, 50, true⟩).derivation = some e ∧
        e.length ≤ d.length := by
  obtain ⟨hok, -, -, -⟩ := sampled_found Draws.next doubling 2 2 ⟨[0, 0, 2147483648], 0⟩
  have hsample : (sample Draws.next doubling 2 2 ⟨[0, 0, 2147483648], 0⟩).1 =
      .ok ⟨'S', [⟨[.terminal 'a'], 1, 0⟩]⟩ := by decide +kernel
  have hbound : (search doubling .contextFree "a" ⟨2, some 1, 50, true⟩).effort.stepBound =
      some 3 := by decide +kernel
  obtain ⟨hvalid, hleft, hpos, hle, hfound⟩ := hok _ (.inr hsample)
  refine ⟨_, hsample, by decide, hvalid, hleft, hpos, hle, ?_⟩
  have hallowed : ∀ b, (search doubling .contextFree "a" ⟨2, some 1, 50, true⟩).effort.stepBound =
      some b → 1 ≤ b := by
    intro b hb
    have hthree := Option.some.inj (hbound.symm.trans hb)
    omega
  rcases hfound .contextFree ⟨2, some 1, 50, true⟩ hallowed with hfound | hroom
  · exact hfound
  · exact absurd hroom (by decide +kernel)

end Sampling

end PhraseStructure
