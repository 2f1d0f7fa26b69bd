import Mathlib.Data.List.Range
import PhraseStructure.Proofs.Catalogue

/-!
# The runs that an arena holds

Links point back, so following them from a stored form ends at the start form and gives the run
that found it. An arena is thus read as the list of its runs, `Arena.derivations`: storing a form
appends the run of its parent, extended by one step (`derivations_push`).
-/

namespace PhraseStructure

namespace Arena

/-- The runs that found the stored forms, in the order of storing. -/
def derivations (a : Arena) (start : Char) : List Derivation :=
  (List.range a.size).map (a.derivation start)

/-- The first form is the start form, every other one has a link back, and the look-up knows
exactly the stored forms. -/
structure Linked (g : Grammar) (a : Arena) : Prop where
  root : a.nodes[0]? = some ⟨g.startForm, none⟩
  parent_lt : ∀ (i : Nat) (node : Node), a.nodes[i]? = some node → 0 < i →
    ∃ origin, node.origin = some origin ∧ origin.parent < i
  seen_iff : ∀ form, form ∈ a.seen ↔ ∃ node ∈ a.nodes, node.form = form

variable {g : Grammar} {a : Arena}

@[simp] theorem length_derivations (a : Arena) (start : Char) :
    (a.derivations start).length = a.size := by
  simp [derivations]

theorem getElem?_derivations {start : Char} {i : Nat} (h : i < a.size) :
    (a.derivations start)[i]? = some (a.derivation start i) := by
  simp [derivations, List.getElem?_range h]

/-! ## Following links -/

theorem stepsTo_append (a : Arena) (links index : Nat) (later : List Step) :
    a.stepsTo links index later = a.stepsTo links index [] ++ later := by
  induction links generalizing index later with
  | zero => rfl
  | succ links ih =>
    simp only [stepsTo]
    split
    · next form origin _ =>
      rw [ih origin.parent (_ :: later), ih origin.parent [_]]
      simp
    · rfl

theorem stepsTo_succ {links index : Nat} {form : Form} {origin : Origin}
    (h : a.nodes[index]? = some ⟨form, some origin⟩) (later : List Step) :
    a.stepsTo (links + 1) index later =
      a.stepsTo links origin.parent (⟨form, origin.production, origin.position⟩ :: later) := by
  simp only [stepsTo, h]

theorem Linked.stepsTo_zero (h : a.Linked g) (links : Nat) (later : List Step) :
    a.stepsTo links 0 later = later := by
  cases links with
  | zero => rfl
  | succ links => simp only [stepsTo, h.root]

theorem Linked.stepsTo_eq (h : a.Linked g) {links links' index : Nat} (hl : index ≤ links)
    (hl' : index ≤ links') (later : List Step) :
    a.stepsTo links index later = a.stepsTo links' index later := by
  induction index using Nat.strong_induction_on generalizing links links' later with
  | _ index ih =>
    rcases Nat.eq_zero_or_pos index with rfl | hpos
    · rw [h.stepsTo_zero, h.stepsTo_zero]
    · obtain ⟨links, rfl⟩ : ∃ n, links = n + 1 := ⟨links - 1, by omega⟩
      obtain ⟨links', rfl⟩ : ∃ n, links' = n + 1 := ⟨links' - 1, by omega⟩
      simp only [stepsTo]
      split
      · next form origin hnode =>
        obtain ⟨origin', horigin, hlt⟩ := h.parent_lt index _ hnode hpos
        obtain rfl := Option.some.inj horigin
        exact ih origin.parent hlt (by omega) (by omega) _
      · rfl

theorem getElem?_push_lt {parent index : Nat} {step : Step} (h : index < a.size) :
    (a.push parent step).nodes[index]? = a.nodes[index]? := by
  have hne : index ≠ a.nodes.size := Nat.ne_of_lt h
  simp [push, Array.getElem?_push, hne]

theorem getElem?_push_size (parent : Nat) (step : Step) :
    (a.push parent step).nodes[a.size]? =
      some ⟨step.form, some ⟨parent, step.production, step.position⟩⟩ := by
  simp [push, size]

theorem Linked.stepsTo_push (h : a.Linked g) (parent : Nat) (step : Step) {links index : Nat}
    (hindex : index < a.size) (later : List Step) :
    (a.push parent step).stepsTo links index later = a.stepsTo links index later := by
  induction links generalizing index later with
  | zero => rfl
  | succ links ih =>
    simp only [stepsTo, getElem?_push_lt hindex]
    split
    · next form origin hnode =>
      rcases Nat.eq_zero_or_pos index with rfl | hpos
      · rw [h.root] at hnode
        cases hnode
      · obtain ⟨origin', horigin, hlt⟩ := h.parent_lt index _ hnode hpos
        obtain rfl := Option.some.inj horigin
        exact ih (by omega) _
    · rfl

/-! ## The runs -/

theorem linked_ofStart (g : Grammar) : (ofStart g.startForm).Linked g where
  root := rfl
  parent_lt := by
    intro i node hnode hpos
    have hlt := (Array.getElem?_eq_some_iff.1 hnode).1
    simp only [ofStart, List.size_toArray, List.length_singleton] at hlt
    omega
  seen_iff := by
    intro form
    simp only [ofStart, Std.TreeSet.mem_ofList, List.contains_cons, List.contains_nil,
      Bool.or_false, List.mem_toArray, List.mem_singleton, exists_eq_left]
    rw [beq_iff_eq, eq_comm]

theorem Linked.push (h : a.Linked g) {parent : Nat} (hparent : parent < a.size) (step : Step) :
    (a.push parent step).Linked g where
  root := by
    rw [getElem?_push_lt (by omega)]
    exact h.root
  parent_lt := by
    intro i node hnode hpos
    rcases Nat.lt_trichotomy i a.size with hi | rfl | hi
    · rw [getElem?_push_lt hi] at hnode
      exact h.parent_lt i node hnode hpos
    · rw [getElem?_push_size] at hnode
      obtain rfl := Option.some.inj hnode
      exact ⟨_, rfl, hparent⟩
    · have hlt := (Array.getElem?_eq_some_iff.1 hnode).1
      have hsize : (a.push parent step).nodes.size = a.size + 1 := size_push a parent step
      omega
  seen_iff := by
    intro form
    rw [mem_seen_push, h.seen_iff]
    simp only [Arena.push, Array.mem_push]
    constructor
    · rintro (rfl | ⟨node, hnode, hform⟩)
      · exact ⟨_, .inr rfl, rfl⟩
      · exact ⟨node, .inl hnode, hform⟩
    · rintro ⟨node, hnode | rfl, hform⟩
      · exact .inr ⟨node, hnode, hform⟩
      · exact .inl hform.symm

theorem derivations_ofStart (g : Grammar) :
    (ofStart g.startForm).derivations g.start = [⟨g.start, []⟩] := rfl

/-- **Storing a form appends its run.** -/
theorem Linked.derivations_push (h : a.Linked g) {parent : Nat} (hparent : parent < a.size)
    (step : Step) (start : Char) :
    (a.push parent step).derivations start =
      a.derivations start ++ [(a.derivation start parent).extend step] := by
  unfold derivations
  rw [size_push, List.range_succ, List.map_append, List.map_singleton]
  congr 1
  · apply List.map_congr_left
    intro i hi
    rw [List.mem_range] at hi
    simp only [derivation, size_push, Derivation.mk.injEq, true_and]
    rw [h.stepsTo_push parent step hi]
    exact h.stepsTo_eq (by omega) (by omega) []
  · simp only [derivation, size_push, Derivation.extend, List.cons.injEq, and_true,
      Derivation.mk.injEq, true_and]
    rw [stepsTo_succ (getElem?_push_size parent step), stepsTo_append,
      h.stepsTo_push parent step hparent]

theorem Linked.endForm_derivation (h : a.Linked g) {index : Nat} {node : Node}
    (hnode : a.nodes[index]? = some node) : (a.derivation g.start index).endForm = node.form := by
  have hlt : index < a.size := (Array.getElem?_eq_some_iff.1 hnode).1
  obtain ⟨links, hlinks⟩ : ∃ n, a.size = n + 1 := ⟨a.size - 1, by omega⟩
  rcases Nat.eq_zero_or_pos index with rfl | hpos
  · obtain rfl := Option.some.inj (h.root.symm.trans hnode)
    simp only [derivation, hlinks, stepsTo, h.root]
    rfl
  · obtain ⟨origin, horigin, -⟩ := h.parent_lt index node hnode hpos
    obtain ⟨form, origin'⟩ := node
    obtain rfl : origin' = some origin := horigin
    rw [derivation, hlinks, stepsTo_succ hnode, stepsTo_append]
    simp [Derivation.endForm]

theorem Linked.mem_seen_iff (h : a.Linked g) {form : Form} :
    form ∈ a.seen ↔ Stores (a.derivations g.start) form := by
  rw [h.seen_iff]
  constructor
  · rintro ⟨node, hmem, rfl⟩
    obtain ⟨i, hi⟩ := Array.getElem?_of_mem hmem
    have hlt : i < a.size := (Array.getElem?_eq_some_iff.1 hi).1
    exact ⟨_, List.mem_of_getElem? (getElem?_derivations hlt), h.endForm_derivation hi⟩
  · rintro ⟨d, hd, rfl⟩
    obtain ⟨i, hi, rfl⟩ := List.mem_map.1 hd
    rw [List.mem_range] at hi
    obtain ⟨node, hnode⟩ : ∃ node, a.nodes[i]? = some node := ⟨_, Array.getElem?_eq_getElem hi⟩
    exact ⟨_, Array.mem_of_getElem? hnode, (h.endForm_derivation hnode).symm⟩

end Arena

end PhraseStructure
