import Mathlib.Data.List.Induction
import Mathlib.Data.List.Range
import PhraseStructure.Proofs.Rewriting

/-!
# Leftmost runs

A leftmost run starts at the start symbol and rewrites the leftmost nonterminal again and again,
without having to come to an end. The finished runs are the leftmost derivations
(`leftmostRun_iff`), and every derivation, whatever its order, has a leftmost run of the same
length to the same string (`exists_leftmostRun`).
-/

namespace PhraseStructure

namespace Derivation

/-- The numbers of the productions applied, in order. -/
def numbers (d : Derivation) : List Nat := d.steps.map Step.production

/-- The derivation with one more step. -/
def extend (d : Derivation) (step : Step) : Derivation := ⟨d.start, d.steps ++ [step]⟩

/-- Whether every step rewrites the leftmost nonterminal: only terminals stand before it. -/
def isLeftmost (d : Derivation) : Bool :=
  d.moves.all fun (previous, step) => Form.isTerminal (previous.take step.position)

@[simp] theorem length_extend (d : Derivation) (step : Step) :
    (d.extend step).length = d.length + 1 := by
  simp [length, extend]

@[simp] theorem numbers_extend (d : Derivation) (step : Step) :
    (d.extend step).numbers = d.numbers ++ [step.production] := by
  simp [numbers, extend]

@[simp] theorem endForm_extend (d : Derivation) (step : Step) :
    (d.extend step).endForm = step.form := by
  simp [endForm, extend]

@[simp] theorem length_numbers (d : Derivation) : d.numbers.length = d.length := by
  simp [numbers, length]

theorem getLast?_form_cons (form : Form) (step : Step) (rest : List Step) :
    ((step :: rest).getLast?.map Step.form).getD form
      = (rest.getLast?.map Step.form).getD step.form := by
  rw [List.getLast?_cons]
  cases rest.getLast? <;> rfl

theorem zip_forms_concat (form : Form) (steps : List Step) (step : Step) :
    (form :: (steps ++ [step]).map Step.form).zip (steps ++ [step]) =
      (form :: steps.map Step.form).zip steps
        ++ [((steps.getLast?.map Step.form).getD form, step)] := by
  induction steps generalizing form with
  | nil => simp
  | cons s rest ih =>
    have hrest := ih s.form
    rw [getLast?_form_cons]
    simp only [List.cons_append, List.map_cons, List.zip_cons_cons] at hrest ⊢
    rw [hrest]

@[simp] theorem moves_extend (d : Derivation) (step : Step) :
    (d.extend step).moves = d.moves ++ [(d.endForm, step)] :=
  zip_forms_concat d.startForm d.steps step

end Derivation

namespace Form

theorem split?_append_nonterminal {left : Form} (hleft : left.isTerminal = true) (c : Char)
    (right : Form) : split? (left ++ .nonterminal c :: right) = some ⟨left, c, right⟩ := by
  induction left with
  | nil => rfl
  | cons s rest ih =>
    cases s with
    | nonterminal d => simp at hleft
    | terminal d =>
      rw [isTerminal_terminal_cons] at hleft
      simp [split?, ih hleft]

end Form

namespace Grammar

variable {g : Grammar}

/-! ## Leftmost steps -/

theorem mem_productionsFor {c : Char} {p : Production} {number : Nat} :
    (p, number) ∈ g.productionsFor c ↔ g.productions[number]? = some p ∧ p.lhs = c := by
  simp [productionsFor, List.mk_mem_zipIdx_iff_getElem?]

theorem leftmostSteps_append {left : Form} (hleft : left.isTerminal = true) (c : Char)
    (right : Form) : g.leftmostSteps (left ++ .nonterminal c :: right) =
      (g.productionsFor c).map fun (p, number) =>
        ⟨left ++ p.rhs ++ right, number, left.length⟩ := by
  simp [leftmostSteps, Form.split?_append_nonterminal hleft, Form.Cut.fill, Form.Cut.position]

theorem follows_iff {form : Form} {step : Step} :
    step.follows g form = true ↔ ∃ p left right, g.productions[step.production]? = some p ∧
      form = left ++ .nonterminal p.lhs :: right ∧ step.position = left.length ∧
        step.form = left ++ p.rhs ++ right := by
  constructor
  · intro h
    unfold Step.follows at h
    split at h
    · cases h
    · next p hget =>
      simp only [Bool.and_eq_true, beq_iff_eq] at h
      obtain ⟨hhead, hstep⟩ := h
      obtain ⟨hlt, hhead⟩ := List.getElem?_eq_some_iff.1 hhead
      refine ⟨p, form.take step.position, form.drop (step.position + 1), hget, ?_, ?_, hstep.symm⟩
      · rw [← hhead, List.getElem_cons_drop, List.take_append_drop]
      · rw [List.length_take]
        omega
  · rintro ⟨p, left, right, hget, rfl, hposition, hstep⟩
    simp [Step.follows, hget, hposition, hstep]

/-- The leftmost steps are the steps before which only terminals stand. -/
theorem mem_leftmostSteps {form : Form} {step : Step} :
    step ∈ g.leftmostSteps form ↔
      step.follows g form = true ∧ Form.isTerminal (form.take step.position) = true := by
  constructor
  · intro h
    cases hcut : form.split? with
    | none => simp [leftmostSteps, hcut] at h
    | some cut =>
      obtain ⟨hform, hbefore⟩ := Form.split?_eq_some hcut
      rw [hform, leftmostSteps_append hbefore] at h
      obtain ⟨⟨p, number⟩, hp, rfl⟩ := List.mem_map.1 h
      obtain ⟨hget, hlhs⟩ := mem_productionsFor.1 hp
      rw [← hlhs] at hform
      exact ⟨follows_iff.2 ⟨p, cut.before, cut.after, hget, hform, rfl, rfl⟩, by
        rw [hform]; simpa using hbefore⟩
  · rintro ⟨hfollows, hbefore⟩
    obtain ⟨p, left, right, hget, rfl, hposition, hstep⟩ := follows_iff.1 hfollows
    rw [hposition, List.take_left] at hbefore
    rw [leftmostSteps_append hbefore]
    refine List.mem_map.2 ⟨(p, step.production), mem_productionsFor.2 ⟨hget, rfl⟩, ?_⟩
    simp only [← hstep, ← hposition]

theorem leftmostSteps_of_isTerminal {form : Form} (h : form.isTerminal = true) :
    g.leftmostSteps form = [] := by
  simp [leftmostSteps, Form.split?_eq_none_iff.2 h]

/-- The leftmost steps are listed in the order of their productions. -/
theorem leftmostSteps_pairwise (form : Form) :
    (g.leftmostSteps form).Pairwise fun s t => s.production < t.production := by
  unfold leftmostSteps
  split
  · exact .nil
  · next cut _ =>
    have hzip : g.productions.zipIdx.Pairwise fun a b => a.2 < b.2 := by
      rw [← List.pairwise_map (f := Prod.snd) (R := (· < ·)), List.zipIdx_map_snd]
      exact List.pairwise_lt_range'
    rw [List.pairwise_map]
    exact hzip.filter _

theorem exists_leftmostStep {left : Form} {p : Production} (hp : p ∈ g.productions)
    (hleft : left.isTerminal = true) (right : Form) :
    ∃ step ∈ g.leftmostSteps (left ++ .nonterminal p.lhs :: right),
      step.form = left ++ p.rhs ++ right := by
  obtain ⟨number, hget⟩ := List.getElem?_of_mem hp
  refine ⟨⟨left ++ p.rhs ++ right, number, left.length⟩, ?_, rfl⟩
  rw [leftmostSteps_append hleft]
  exact List.mem_map.2 ⟨(p, number), mem_productionsFor.2 ⟨hget, rfl⟩, rfl⟩

/-! ## Runs -/

/-- A derivation, not necessarily finished, each of whose steps is leftmost. -/
inductive LeftmostRun (g : Grammar) : Derivation → Prop where
  | start : LeftmostRun g ⟨g.start, []⟩
  | extend {d : Derivation} {step : Step} :
      LeftmostRun g d → step ∈ g.leftmostSteps d.endForm → LeftmostRun g (d.extend step)

theorem leftmostRun_iff_moves {d : Derivation} :
    g.LeftmostRun d ↔
      d.start = g.start ∧ ∀ m ∈ d.moves, m.2 ∈ g.leftmostSteps m.1 := by
  constructor
  · intro h
    induction h with
    | start => simp [Derivation.moves]
    | extend _ hstep ih =>
      refine ⟨ih.1, ?_⟩
      intro m hm
      rw [Derivation.moves_extend, List.mem_append, List.mem_singleton] at hm
      rcases hm with hm | rfl
      · exact ih.2 m hm
      · exact hstep
  · -- Runs grow at their end, so the steps are taken from the last one back.
    obtain ⟨start, steps⟩ := d
    induction steps using List.reverseRecOn with
    | nil =>
      rintro ⟨rfl, -⟩
      exact .start
    | append_singleton steps step ih =>
      rintro ⟨hstart, hmoves⟩
      have hext : (⟨start, steps ++ [step]⟩ : Derivation) = Derivation.extend ⟨start, steps⟩ step :=
        rfl
      rw [hext, Derivation.moves_extend] at hmoves
      rw [hext]
      refine .extend (ih ⟨hstart, fun m hm => hmoves m (List.mem_append_left _ hm)⟩) ?_
      exact hmoves _ (List.mem_append_right _ (List.mem_singleton_self _))

/-- **A finished leftmost run is a leftmost derivation.** -/
theorem leftmostRun_iff {d : Derivation} :
    g.LeftmostRun d ∧ d.endForm.isTerminal = true ↔
      d.validIn g = true ∧ d.isLeftmost = true := by
  rw [leftmostRun_iff_moves]
  simp only [mem_leftmostSteps, Derivation.validIn, Derivation.isLeftmost, Bool.and_eq_true,
    List.all_eq_true, beq_iff_eq]
  constructor
  · rintro ⟨⟨hstart, hmoves⟩, hend⟩
    exact ⟨⟨⟨hstart, fun m hm => (hmoves m hm).1⟩, hend⟩, fun m hm => (hmoves m hm).2⟩
  · rintro ⟨⟨⟨hstart, hfollows⟩, hend⟩, hleft⟩
    exact ⟨⟨hstart, fun m hm => ⟨hfollows m hm, hleft m hm⟩⟩, hend⟩

theorem rewrites_of_follows {form : Form} {step : Step} (h : step.follows g form = true) :
    g.Rewrites form step.form := by
  obtain ⟨p, left, right, hget, hform, -, hstep⟩ := follows_iff.1 h
  exact ⟨p, List.mem_of_getElem? hget, left, right, hform, hstep⟩

/-- What holds of the start form and is kept by every step holds at the end of every run. -/
theorem LeftmostRun.induction_form {P : Form → Prop} (hstart : P g.startForm)
    (hstep : ∀ before after, g.Rewrites before after → P before → P after) {d : Derivation}
    (hd : g.LeftmostRun d) : P d.endForm := by
  induction hd with
  | start => exact hstart
  | @extend d step _ hmem ih =>
    rw [Derivation.endForm_extend]
    exact hstep _ _ (rewrites_of_follows (mem_leftmostSteps.1 hmem).1) ih

theorem derivesIn_of_follows {form : Form} {steps : List Step}
    (h : ∀ m ∈ (form :: steps.map Step.form).zip steps, m.2.follows g m.1 = true) :
    g.DerivesIn steps.length form ((steps.getLast?.map Step.form).getD form) := by
  induction steps generalizing form with
  | nil => exact .refl form
  | cons s rest ih =>
    simp only [List.map_cons, List.zip_cons_cons, List.mem_cons, forall_eq_or_imp] at h
    rw [Derivation.getLast?_form_cons]
    exact .step (rewrites_of_follows h.1) (ih h.2)

theorem derivesIn_of_validIn {d : Derivation} (h : d.validIn g = true) :
    g.DerivesIn d.length g.startForm d.endForm := by
  simp only [Derivation.validIn, Bool.and_eq_true, beq_iff_eq, List.all_eq_true] at h
  obtain ⟨⟨hstart, hmoves⟩, -⟩ := h
  have hd : g.DerivesIn d.length d.startForm d.endForm := derivesIn_of_follows hmoves
  rwa [Derivation.startForm, hstart] at hd

/-- A run can be continued to every terminal form that its form derives. -/
theorem LeftmostRun.continue {d : Derivation} (hd : g.LeftmostRun d) {n : Nat} {form : Form}
    (hform : form.isTerminal = true) (h : g.DerivesIn n d.endForm form) :
    ∃ e, g.LeftmostRun e ∧ e.length = d.length + n ∧ e.endForm = form := by
  -- Induction on the steps to go: one of them can be spent on the leftmost nonterminal.
  induction n generalizing d with
  | zero =>
    cases h with
    | refl => exact ⟨d, hd, rfl, rfl⟩
  | succ n ih =>
    cases hcut : d.endForm.split? with
    | none =>
      obtain ⟨hn, -⟩ := h.of_isTerminal (Form.split?_eq_none_iff.1 hcut)
      omega
    | some cut =>
      obtain ⟨hend, hbefore⟩ := Form.split?_eq_some hcut
      rw [hend] at h
      obtain ⟨p, hp, hlhs, m, hm, hrest⟩ := h.leftmost_first hbefore hform
      obtain rfl : n = m := by omega
      obtain ⟨step, hstep, hstepForm⟩ := exists_leftmostStep hp hbefore cut.after
      rw [hlhs, ← hend] at hstep
      have hrest' : g.DerivesIn n (d.extend step).endForm form := by
        rw [Derivation.endForm_extend, hstepForm]
        exact hrest
      obtain ⟨e, he, hlen, heForm⟩ := ih (hd.extend hstep) hrest'
      refine ⟨e, he, ?_, heForm⟩
      rw [hlen, Derivation.length_extend]
      omega

/-- **Every derivation of a string has a leftmost run of the same length.** -/
theorem exists_leftmostRun {n : Nat} {form : Form} (hform : form.isTerminal = true)
    (h : g.DerivesIn n g.startForm form) :
    ∃ e, g.LeftmostRun e ∧ e.length = n ∧ e.endForm = form := by
  obtain ⟨e, he, hlen, hend⟩ := LeftmostRun.continue .start hform h
  refine ⟨e, he, ?_, hend⟩
  rw [hlen]
  simp [Derivation.length]

end Grammar

end PhraseStructure
