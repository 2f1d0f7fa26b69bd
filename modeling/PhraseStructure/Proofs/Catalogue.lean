import Mathlib.Data.List.Lex
import Mathlib.Data.Prod.Lex
import PhraseStructure.Proofs.LeftmostRun
import PhraseStructure.Proofs.Pruning
import PhraseStructure.Search.Explore

/-!
# Catalogues of leftmost runs

Leftmost runs are ranked by their length and then by their production numbers, in lexicographic
order. A catalogue lists runs by increasing rank, and each of them has the least rank of all runs
to its form, whether these pass the sieve or not. Breadth-first search keeps a catalogue: the runs
to its stored forms.

* `Catalogue.stores_of_rank_lt`: a catalogue that is closed below a rank has every passing form
  with a run below it.
* `Catalogue.push`: so the next run to a form that is not yet stored is the least one.
-/

namespace PhraseStructure

namespace Derivation

/-- The place of a derivation among all: shorter ones come first, and of two that are equally long
the one with the lexicographically smaller production numbers. -/
def rank (d : Derivation) : ℕ ×ₗ List ℕ := toLex (d.length, d.numbers)

theorem rank_lt_rank {d e : Derivation} :
    d.rank < e.rank ↔ d.length < e.length ∨ d.length = e.length ∧ d.numbers < e.numbers :=
  Prod.Lex.toLex_lt_toLex

theorem rank_le_rank {d e : Derivation} :
    d.rank ≤ e.rank ↔ d.length < e.length ∨ d.length = e.length ∧ d.numbers ≤ e.numbers :=
  Prod.Lex.toLex_le_toLex

theorem concat_lt_concat {a b : List Nat} (h : a.length = b.length) (n m : Nat) :
    a ++ [n] < b ++ [m] ↔ a < b ∨ a = b ∧ n < m := by
  induction a generalizing b with
  | nil =>
    cases b with
    | nil => simp [List.cons_lt_cons_iff]
    | cons y ys => simp at h
  | cons x xs ih =>
    cases b with
    | nil => simp at h
    | cons y ys =>
      have := ih (Nat.succ.inj h)
      simp only [List.cons_append, List.cons_lt_cons_iff, this, List.cons.injEq]
      tauto

/-- Extended runs are ranked as the runs are, and then by the last production. -/
theorem rank_extend_lt {d e : Derivation} {s t : Step} :
    (d.extend s).rank < (e.extend t).rank ↔
      d.rank < e.rank ∨ d.rank = e.rank ∧ s.production < t.production := by
  have hinj : d.rank = e.rank ↔ d.length = e.length ∧ d.numbers = e.numbers := by
    rw [rank, rank, toLex_inj, Prod.mk.injEq]
  rw [rank_lt_rank, rank_lt_rank, hinj]
  simp only [length_extend, numbers_extend]
  by_cases hlen : d.length = e.length
  · rw [concat_lt_concat (by simpa using hlen)]
    simp [hlen]
  · simp only [Nat.add_lt_add_iff_right, Nat.add_right_cancel_iff, hlen, false_and, or_false]

theorem rank_lt_extend (d : Derivation) (s : Step) : d.rank < (d.extend s).rank := by
  rw [rank_lt_rank, length_extend]
  exact .inl (Nat.lt_succ_self _)

theorem rank_extend_le {d e : Derivation} (h : d.rank ≤ e.rank) (s : Step) :
    (d.extend s).rank ≤ (e.extend s).rank := by
  rw [← not_lt, rank_extend_lt]
  rintro (hlt | ⟨-, hlt⟩)
  · exact absurd hlt (not_lt.2 h)
  · exact Nat.lt_irrefl _ hlt

end Derivation

namespace Query

/-- The sieve of the query belongs to its grammar. -/
def Lawful (q : Query) : Prop := q.sieve.yields = .ofGrammar q.grammar

theorem lawful_new (g : Grammar) (cls : GrammarClass) (input : String) (limits : SearchLimits) :
    (Query.new g cls input limits).Lawful := rfl

/-- The form of the wanted string. -/
def goal (q : Query) : Form := q.sieve.target.map Symbol.terminal

theorem isGoal_iff {q : Query} {form : Form} : q.isGoal form = true ↔ form = q.goal := by
  simp [isGoal, goal]

@[simp] theorem isTerminal_goal (q : Query) : q.goal.isTerminal = true :=
  Form.isTerminal_map_terminal _

end Query

/-- Some listed run leads to the form. -/
def Stores (ds : List Derivation) (form : Form) : Prop := ∃ d ∈ ds, d.endForm = form

theorem Stores.append {ds : List Derivation} {form : Form} (h : Stores ds form)
    (es : List Derivation) : Stores (ds ++ es) form := by
  obtain ⟨d, hd, hform⟩ := h
  exact ⟨d, List.mem_append_left es hd, hform⟩

/-- A list of leftmost runs by increasing rank, each the first of all runs to its form. -/
structure Catalogue (q : Query) (ds : List Derivation) : Prop where
  root : ds[0]? = some ⟨q.grammar.start, []⟩
  run : ∀ d ∈ ds, q.grammar.LeftmostRun d
  sorted : ds.Pairwise fun d e => d.rank < e.rank
  least : ∀ d ∈ ds, ∀ e, q.grammar.LeftmostRun e → e.endForm = d.endForm → d.rank ≤ e.rank
  passes : ∀ d ∈ ds, d.steps = [] ∨ q.sieve.passes d.endForm = true

namespace Catalogue

variable {q : Query} {ds : List Derivation}

theorem singleton (q : Query) : Catalogue q [⟨q.grammar.start, []⟩] where
  root := rfl
  run := by
    intro d hd
    rw [List.mem_singleton.1 hd]
    exact .start
  sorted := List.pairwise_singleton _ _
  least := by
    intro d hd e _ _
    rw [List.mem_singleton.1 hd, Derivation.rank_le_rank]
    simp only [Derivation.length, Derivation.numbers, List.length_nil, List.map_nil]
    rcases Nat.eq_zero_or_pos e.steps.length with h | h
    · rw [List.length_eq_zero_iff.1 h]
      exact .inr ⟨rfl, le_rfl⟩
    · exact .inl h
  passes := by
    intro d hd
    rw [List.mem_singleton.1 hd]
    exact .inl rfl

theorem rank_lt_of_lt (h : Catalogue q ds) {i j : Nat} {d e : Derivation} (hd : ds[i]? = some d)
    (he : ds[j]? = some e) (hij : i < j) : d.rank < e.rank := by
  obtain ⟨hi, rfl⟩ := List.getElem?_eq_some_iff.1 hd
  obtain ⟨hj, rfl⟩ := List.getElem?_eq_some_iff.1 he
  exact List.pairwise_iff_getElem.1 h.sorted i j hi hj hij

theorem lt_of_rank_lt (h : Catalogue q ds) {i j : Nat} {d e : Derivation} (hd : ds[i]? = some d)
    (he : ds[j]? = some e) (hrank : d.rank < e.rank) : i < j := by
  rcases Nat.lt_trichotomy i j with hij | rfl | hij
  · exact hij
  · obtain rfl := Option.some.inj (hd.symm.trans he)
    exact absurd hrank (lt_irrefl _)
  · exact absurd hrank (h.rank_lt_of_lt he hd hij).asymm

theorem eq_of_rank_eq (h : Catalogue q ds) {i j : Nat} {d e : Derivation} (hd : ds[i]? = some d)
    (he : ds[j]? = some e) (hrank : d.rank = e.rank) : d = e := by
  rcases Nat.lt_trichotomy i j with hij | rfl | hij
  · exact absurd hrank (h.rank_lt_of_lt hd he hij).ne
  · exact Option.some.inj (hd.symm.trans he)
  · exact absurd hrank (h.rank_lt_of_lt he hd hij).ne'

/-- **Coverage.** If the passing successors of the listed runs below a rank are stored, so is
every passing form that some leftmost run below that rank leads to. -/
theorem stores_of_rank_lt (h : Catalogue q ds) (hq : q.Lawful) {bound : ℕ ×ₗ List ℕ}
    (hclosed : ∀ d ∈ ds, ∀ step ∈ q.grammar.leftmostSteps d.endForm,
      q.sieve.passes step.form = true → (d.extend step).rank < bound → Stores ds step.form)
    {e : Derivation} (he : q.grammar.LeftmostRun e)
    (hpasses : e.steps = [] ∨ q.sieve.passes e.endForm = true) (hbound : e.rank < bound) :
    Stores ds e.endForm := by
  induction he with
  | start => exact ⟨_, List.mem_of_getElem? h.root, rfl⟩
  | @extend e step he hstep ih =>
    have hstepPasses : q.sieve.passes step.form = true := by
      rcases hpasses with hnil | hpasses
      · simp [Derivation.extend] at hnil
      · rwa [Derivation.endForm_extend] at hpasses
    have hrw := Grammar.rewrites_of_follows (Grammar.mem_leftmostSteps.1 hstep).1
    have heRank := (Derivation.rank_lt_extend e step).trans hbound
    obtain ⟨d, hd, hdForm⟩ := ih (.inr (Sieve.passes_of_rewrites hq hrw hstepPasses)) heRank
    -- The listed run to the same form is ranked no higher, and so is its extension.
    have hle := Derivation.rank_extend_le (h.least d hd e he hdForm.symm) step
    rw [← hdForm] at hstep
    rw [Derivation.endForm_extend]
    exact hclosed d hd step hstep hstepPasses (lt_of_le_of_lt hle hbound)

/-- **A new form can be listed** by the first run to it. -/
theorem push (h : Catalogue q ds) (hq : q.Lawful) {d : Derivation} {step : Step} (hd : d ∈ ds)
    (hstep : step ∈ q.grammar.leftmostSteps d.endForm)
    (hpasses : q.sieve.passes step.form = true) (hnew : ¬ Stores ds step.form)
    (hlast : ∀ e ∈ ds, e.rank < (d.extend step).rank)
    (hclosed : ∀ e ∈ ds, ∀ t ∈ q.grammar.leftmostSteps e.endForm, q.sieve.passes t.form = true →
      (e.extend t).rank < (d.extend step).rank → Stores ds t.form) :
    Catalogue q (ds ++ [d.extend step]) where
  root := by
    obtain ⟨hlt, -⟩ := List.getElem?_eq_some_iff.1 h.root
    rw [List.getElem?_append_left hlt]
    exact h.root
  run := by
    intro e he
    rcases List.mem_append.1 he with he | he
    · exact h.run e he
    · rw [List.mem_singleton.1 he]
      exact (h.run d hd).extend hstep
  sorted := by
    rw [List.pairwise_append]
    refine ⟨h.sorted, List.pairwise_singleton _ _, ?_⟩
    intro e he f hf
    rw [List.mem_singleton.1 hf]
    exact hlast e he
  least := by
    intro e he f hf hform
    rcases List.mem_append.1 he with he | he
    · exact h.least e he f hf hform
    · rw [List.mem_singleton.1 he] at hform ⊢
      rw [Derivation.endForm_extend] at hform
      -- An earlier run to the form would have been stored.
      by_contra hlt
      refine hnew ?_
      rw [← hform]
      exact h.stores_of_rank_lt hq hclosed hf (.inr (by rw [hform]; exact hpasses)) (not_le.1 hlt)
  passes := by
    intro e he
    rcases List.mem_append.1 he with he | he
    · exact h.passes e he
    · rw [List.mem_singleton.1 he, Derivation.endForm_extend]
      exact .inr hpasses

theorem nodup (h : Catalogue q ds) : (ds.map Derivation.endForm).Nodup := by
  rw [List.nodup_iff_pairwise_ne, List.pairwise_map]
  refine h.sorted.imp_of_mem ?_
  intro d e hd he hlt hform
  exact absurd (h.least e he d (h.run d hd) hform) (not_le.2 hlt)

end Catalogue

end PhraseStructure
