import Std.Data.TreeSet
import PhraseStructure.Derivation

/-!
# Stored forms

A search stores each form once, in the order of discovery, with a link to the form it was
rewritten from. Following the links back from a form gives the derivation that found it.
-/

namespace PhraseStructure

/-- How a stored form was found: by which production, at which place of which stored form. -/
structure Origin where
  parent : Nat
  production : Nat
  position : Nat
deriving DecidableEq, Repr

/-- A stored form. The form that a search starts from has no origin. -/
structure Node where
  form : Form
  origin : Option Origin
deriving DecidableEq, Repr

/-- The forms stored so far. -/
structure Arena where
  nodes : Array Node
  /-- The forms of the nodes, for fast look-up. -/
  seen : Std.TreeSet Form

namespace Arena

/-- The arena that holds only the form to start from. -/
def ofStart (form : Form) : Arena := ⟨#[⟨form, none⟩], .ofList [form]⟩

/-- The number of stored forms. -/
def size (a : Arena) : Nat := a.nodes.size

/-- Stores a form that was rewritten from the form at `parent`. -/
def push (a : Arena) (parent : Nat) (step : Step) : Arena :=
  { nodes := a.nodes.push ⟨step.form, some ⟨parent, step.production, step.position⟩⟩
    seen := a.seen.insert step.form }

@[simp] theorem size_push (a : Arena) (parent : Nat) (step : Step) :
    (a.push parent step).size = a.size + 1 := by
  simp [push, size]

/-- Storing a form makes it known, and changes nothing for the others. -/
theorem mem_seen_push (a : Arena) (parent : Nat) (step : Step) (form : Form) :
    form ∈ (a.push parent step).seen ↔ form = step.form ∨ form ∈ a.seen := by
  simp only [push, Std.TreeSet.mem_insert, Std.LawfulEqOrd.compare_eq_iff_eq]
  constructor <;> rintro (h | h) <;> simp [h]

/-- The nodes from a given index on, each with its index. -/
def nodesFrom (a : Arena) (first : Nat) : List (Node × Nat) :=
  (a.nodes.extract first a.nodes.size).toList.zipIdx first

/-- The steps that lead to the form at an index, before the given later steps, following at most
`links` links. -/
def stepsTo (a : Arena) : (links index : Nat) → (later : List Step) → List Step
  | 0, _, later => later
  | links + 1, index, later =>
    match a.nodes[index]? with
    | some ⟨form, some origin⟩ =>
      a.stepsTo links origin.parent (⟨form, origin.production, origin.position⟩ :: later)
    | _ => later

/-- The derivation that found the form at an index. A link always points back, so there are fewer
links than stored forms. -/
def derivation (a : Arena) (start : Char) (index : Nat) : Derivation :=
  ⟨start, a.stepsTo a.size index []⟩

end Arena

end PhraseStructure
