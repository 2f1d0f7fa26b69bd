import PhraseStructure.Proofs.Sampling

/-!
# What can be sampled

Every leftmost derivation comes out of the sampler on the right draws, one for each step. For a
choice among `n`, the draws that pick the index `i` are those whose product with `n` lies between
`i * 2 ^ 32` and `(i + 1) * 2 ^ 32`. The least of them is less than `n` above the lower end, and no
draw as close as that is thrown away. So every step can be had by a single draw, and a derivation by
the draws of its steps.

* `exists_draw`: every index has a draw that picks it and is used.
* `exists_draw_choose`: so every element of a list can be chosen.
* `exists_draws_walk`: the draws for a run, step by step.
* `every_derivation_sampled`: the draws for a derivation, and for every string of the language.
-/

namespace PhraseStructure.Sampling

/-! ## One draw -/

/-- The low halves that are used reach up to `n - 1` at least. -/
theorem le_zone {n r : Nat} (h : r < n) : r ≤ zone n := by
  have hshift : n * 1 ≤ n * 2 ^ (31 - n.log2) := Nat.mul_le_mul_left n Nat.one_le_two_pow
  unfold zone
  rw [Nat.shiftLeft_eq]
  omega

/-- The least number whose product with `n` is no less than `m`. -/
theorem exists_least_product {n : Nat} (hn : 0 < n) (m : Nat) :
    ∃ k r, k * n = m + r ∧ r < n := by
  have hdivision := Nat.div_add_mod (m + (n - 1)) n
  have hmod := Nat.mod_lt (m + (n - 1)) hn
  rw [Nat.mul_comm] at hdivision
  exact ⟨(m + (n - 1)) / n, n - 1 - (m + (n - 1)) % n, by omega, by omega⟩

/-- **Every index can be drawn,** by a number that is not thrown away. -/
theorem exists_draw {n i : Nat} (hi : i < n) (hn : n < drawRange) :
    ∃ v : UInt32, accepts v n = true ∧ indexOf v n = i := by
  obtain ⟨k, r, hk, hr⟩ := exists_least_product (Nat.zero_lt_of_lt hi) (i * drawRange)
  have hlt : k < drawRange := by
    -- The product is at most that of the next index, and `r` is less than a whole range.
    have hnext : (i + 1) * drawRange ≤ n * drawRange := Nat.mul_le_mul_right drawRange hi
    rw [Nat.add_mul, Nat.one_mul] at hnext
    refine Nat.lt_of_mul_lt_mul_right (a := n) ?_
    rw [hk, Nat.mul_comm drawRange n]
    omega
  have hv : (UInt32.ofNat k).toNat = k := UInt32.toNat_ofNat_of_lt hlt
  refine ⟨.ofNat k, ?_, ?_⟩
  · have hlow : (i * drawRange + r) % drawRange = r := by
      rw [Nat.mul_comm, Nat.mul_add_mod, Nat.mod_eq_of_lt (hr.trans hn)]
    unfold accepts
    rw [hv, hk, hlow, decide_eq_true_eq]
    exact le_zone hr
  · unfold indexOf
    rw [hv, hk]
    exact Nat.div_eq_of_lt_le (by omega) (by rw [Nat.add_mul, Nat.one_mul]; omega)

section

variable {σ : Type} {next : σ → UInt32 × σ} {s s' : σ} {v : UInt32}

/-- A number that is used ends the drawing. -/
theorem drawIndex_of_accepts {n : Nat} (hnext : next s = (v, s')) (h : accepts v n = true)
    (fuel : Nat) : drawIndex next n fuel s = (indexOf v n, s') := by
  cases fuel with
  | zero => simp only [drawIndex, hnext]
  | succ fuel => simp only [drawIndex, hnext, h, if_true]

theorem choose_of_accepts {α : Type} {l : List α} {x : α} (hnext : next s = (v, s'))
    (h : accepts v l.length = true) (hx : l[indexOf v l.length]? = some x) :
    choose next l s = some (x, s') := by
  cases l with
  | nil => cases hx
  | cons y rest =>
    rw [List.length_cons] at h hx
    simp only [choose, drawIndex_of_accepts hnext h, List.getD_eq_getElem?_getD, hx,
      Option.getD_some]

end

/-- **Every element can be chosen,** whatever the source does besides. -/
theorem exists_draw_choose {α : Type} {l : List α} {x : α} (hx : x ∈ l)
    (hl : l.length < drawRange) :
    ∃ v : UInt32, ∀ {σ : Type} (next : σ → UInt32 × σ) (s s' : σ), next s = (v, s') →
      choose next l s = some (x, s') := by
  obtain ⟨i, hi⟩ := List.getElem?_of_mem hx
  obtain ⟨v, hv, hindex⟩ := exists_draw (List.getElem?_eq_some_iff.1 hi).1 hl
  refine ⟨v, ?_⟩
  intro σ next s s' hnext
  rw [← hindex] at hi
  exact choose_of_accepts hnext hv hi

/-! ## The draws of a run -/

theorem length_leftmostSteps_lt {g : Grammar} (hfew : ∀ c, (g.productionsFor c).length < drawRange)
    (form : Form) : (g.leftmostSteps form).length < drawRange := by
  unfold Grammar.leftmostSteps
  split
  · decide
  · rw [List.length_map]
    exact hfew _

/-- A walk takes the step that it chooses. -/
theorem walk_of_choose {σ : Type} {next : σ → UInt32 × σ} {g : Grammar} {maxSteps remaining : Nat}
    {form : Form} {taken : List Step} {s s' : σ} {step : Step}
    (h : choose next (g.leftmostSteps form) s = some (step, s')) :
    walk next g maxSteps (remaining + 1) form taken s =
      walk next g maxSteps remaining step.form (step :: taken) s' := by
  have hmem := choose_mem next h
  cases hcut : form.split? with
  | none => simp [Grammar.leftmostSteps, hcut] at hmem
  | some cut =>
    rw [walk]
    simp only [hcut, h]

/-- **The draws of a run lead a walk along it,** with as many steps left as are not needed. -/
theorem exists_draws_walk {g : Grammar} (hfew : ∀ c, (g.productionsFor c).length < drawRange)
    {start : Char} {d : Derivation} (hd : (g.startingAt start).LeftmostRun d) :
    ∃ draws : List UInt32, draws.length = d.length ∧
      ∀ (maxSteps spare : Nat) (rest : List UInt32) (state : UInt32),
        walk Draws.next g maxSteps (d.length + spare) [.nonterminal start] []
            ⟨draws ++ rest, state⟩ =
          walk Draws.next g maxSteps spare d.endForm d.steps.reverse ⟨rest, state⟩ := by
  induction hd with
  | start =>
    refine ⟨[], rfl, ?_⟩
    intro maxSteps spare rest state
    rw [show (⟨(g.startingAt start).start, []⟩ : Derivation).length + spare = spare from
      Nat.zero_add spare]
    rfl
  | @extend d step hrun hstep ih =>
    obtain ⟨draws, hlength, hwalk⟩ := ih
    obtain ⟨v, hv⟩ := exists_draw_choose hstep (length_leftmostSteps_lt hfew d.endForm)
    refine ⟨draws ++ [v], by simp [hlength], ?_⟩
    intro maxSteps spare rest state
    have hchoose : choose Draws.next (g.leftmostSteps d.endForm) ⟨v :: rest, state⟩ =
        some (step, ⟨rest, state⟩) := hv Draws.next _ _ rfl
    calc walk Draws.next g maxSteps ((d.extend step).length + spare) [.nonterminal start] []
            ⟨draws ++ [v] ++ rest, state⟩
        = walk Draws.next g maxSteps (d.length + (spare + 1)) [.nonterminal start] []
            ⟨draws ++ v :: rest, state⟩ := by
          rw [Derivation.length_extend, Nat.add_assoc, Nat.add_comm 1, List.append_assoc,
            List.singleton_append]
      _ = walk Draws.next g maxSteps (spare + 1) d.endForm d.steps.reverse ⟨v :: rest, state⟩ :=
          hwalk maxSteps (spare + 1) (v :: rest) state
      _ = walk Draws.next g maxSteps spare step.form (step :: d.steps.reverse) ⟨rest, state⟩ :=
          walk_of_choose hchoose
      _ = walk Draws.next g maxSteps spare (d.extend step).endForm (d.extend step).steps.reverse
            ⟨rest, state⟩ := by
          simp [Derivation.extend, Derivation.endForm]

theorem exists_draws_generateFrom {g : Grammar}
    (hfew : ∀ c, (g.productionsFor c).length < drawRange) {start : Char} {d : Derivation}
    (hd : (g.startingAt start).LeftmostRun d) (hterm : d.endForm.isTerminal = true) :
    ∃ draws : List UInt32, draws.length = d.length ∧
      ∀ (maxSteps : Nat) (rest : List UInt32) (state : UInt32), d.length ≤ maxSteps →
        generateFrom Draws.next g start maxSteps ⟨draws ++ rest, state⟩ =
          (.ok d, ⟨rest, state⟩) := by
  obtain ⟨draws, hlength, hwalk⟩ := exists_draws_walk hfew hd
  refine ⟨draws, hlength, ?_⟩
  intro maxSteps rest state hle
  have hend := hwalk maxSteps (maxSteps - d.length) rest state
  rw [Nat.add_sub_cancel' hle] at hend
  -- The last form is terminal, so the walk stops there, whatever steps are left.
  have hstop : walk Draws.next g maxSteps (maxSteps - d.length) d.endForm d.steps.reverse
      ⟨rest, state⟩ = (.ok d.steps, ⟨rest, state⟩) := by
    rw [walk]
    simp only [Form.split?_eq_none_iff.2 hterm, List.reverse_reverse]
  have hstart : (⟨start, d.steps⟩ : Derivation) = d := by
    rw [← Grammar.start_startingAt g start, ← hd.start_eq]
  simp only [generateFrom, hend, hstop, Except.map, hstart]

/-- **Every derivation can be sampled.** If no nonterminal has as many productions as there are
draws, every leftmost derivation from any symbol has a list of draws, one for each step, on which
exactly this derivation is sampled and nothing more is drawn, under every limit that it keeps to.
So every string of the language can be sampled. -/
theorem every_derivation_sampled (g : Grammar)
    (hfew : ∀ c, (g.productionsFor c).length < 2 ^ 32) :
    (∀ (start : Char) (d : Derivation), d.validIn (g.startingAt start) = true →
      d.isLeftmost = true →
      ∃ draws : List UInt32, draws.length = d.length ∧
        ∀ (maxSteps : Nat) (rest : List UInt32) (state : UInt32), d.length ≤ maxSteps →
          generateFrom Draws.next g start maxSteps ⟨draws ++ rest, state⟩ =
            (.ok d, ⟨rest, state⟩)) ∧
    ∀ w, g.Generates w → ∃ d : Derivation, d.word = String.ofList w ∧
      ∃ draws : List UInt32, draws.length = d.length ∧
        ∀ (maxSteps : Nat) (rest : List UInt32) (state : UInt32), d.length ≤ maxSteps →
          generate Draws.next g maxSteps ⟨draws ++ rest, state⟩ = (.ok d, ⟨rest, state⟩) := by
  constructor
  · intro start d hvalid hleft
    obtain ⟨hrun, hterm⟩ := Grammar.leftmostRun_iff.2 ⟨hvalid, hleft⟩
    exact exists_draws_generateFrom hfew hrun hterm
  · rintro w ⟨n, hn⟩
    obtain ⟨d, hd, -, hform⟩ := Grammar.exists_leftmostRun (Form.isTerminal_map_terminal w) hn
    have hterm : d.endForm.isTerminal = true := by
      rw [hform]
      exact Form.isTerminal_map_terminal w
    have hrun : (g.startingAt g.start).LeftmostRun d := hd
    refine ⟨d, ?_, exists_draws_generateFrom hfew hrun hterm⟩
    rw [Derivation.word, hform, Form.chars_map_terminal]

/-- The derivation `S → SS → aS → a` among the three productions of `S`. -/
def vanishingPair : Derivation :=
  ⟨'S', [⟨[.nonterminal 'S', .nonterminal 'S'], 0, 0⟩, ⟨[.terminal 'a', .nonterminal 'S'], 1, 0⟩,
    ⟨[.terminal 'a'], 2, 1⟩]⟩

/-- It is sampled by three draws, under a limit of three steps. -/
theorem every_derivation_sampled_vanishingPair :
    (∀ c, (doubling.productionsFor c).length < 2 ^ 32) ∧
      vanishingPair.validIn (doubling.startingAt 'S') = true ∧
      vanishingPair.isLeftmost = true ∧
      ∃ draws : List UInt32, draws.length = 3 ∧ ∀ (rest : List UInt32) (state : UInt32),
        generateFrom Draws.next doubling 'S' 3 ⟨draws ++ rest, state⟩ =
          (.ok vanishingPair, ⟨rest, state⟩) := by
  have hfew : ∀ c, (doubling.productionsFor c).length < 2 ^ 32 := by
    intro c
    have hle : (doubling.productionsFor c).length ≤ doubling.productions.zipIdx.length :=
      List.length_filter_le _ _
    have hthree : doubling.productions.zipIdx.length = 3 := rfl
    omega
  have hvalid : vanishingPair.validIn (doubling.startingAt 'S') = true := by decide
  have hleft : vanishingPair.isLeftmost = true := by decide
  obtain ⟨draws, hlength, hdraws⟩ := (every_derivation_sampled doubling hfew).1 'S' _ hvalid hleft
  exact ⟨hfew, hvalid, hleft, draws, hlength, fun rest state => hdraws 3 rest state (by decide)⟩

end PhraseStructure.Sampling
