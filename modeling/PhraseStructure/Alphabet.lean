/-!
# Finite sets of characters

The nonterminals and the terminals of a grammar are finite sets of characters, kept as strictly
increasing lists. So two alphabets with the same members are equal, and listing one gives its
members in code point order.
-/

namespace PhraseStructure

/-- A finite set of characters. -/
structure Alphabet where
  /-- The members in increasing order. -/
  chars : List Char
  sorted : chars.Pairwise (· < ·)
deriving DecidableEq

namespace Alphabet

/-- The alphabet without members. -/
def empty : Alphabet := ⟨[], .nil⟩

instance : Inhabited Alphabet := ⟨empty⟩

instance : Membership Char Alphabet := ⟨fun a c => c ∈ a.chars⟩

instance (c : Char) (a : Alphabet) : Decidable (c ∈ a) :=
  inferInstanceAs (Decidable (c ∈ a.chars))

/-- Puts a character at its place in an increasing list. -/
def place (c : Char) : List Char → List Char
  | [] => [c]
  | d :: rest =>
    if c < d then c :: d :: rest
    else if c = d then d :: rest
    else d :: place c rest

theorem mem_place {x c : Char} {l : List Char} : x ∈ place c l ↔ x = c ∨ x ∈ l := by
  induction l with
  | nil => simp [place]
  | cons d rest ih =>
    unfold place
    split
    · simp
    · split
      · next h => subst h; simp
      · simp [ih]; grind

theorem pairwise_place {c : Char} {l : List Char} (h : l.Pairwise (· < ·)) :
    (place c l).Pairwise (· < ·) := by
  induction l with
  | nil => simp [place]
  | cons d rest ih =>
    obtain ⟨hd, hrest⟩ := List.pairwise_cons.1 h
    unfold place
    split
    · next hlt =>
      refine List.pairwise_cons.2 ⟨?_, h⟩
      intro x hx
      rcases List.mem_cons.1 hx with rfl | hx
      · exact hlt
      · exact Char.lt_trans hlt (hd x hx)
    · split
      · exact h
      · next hnlt hne =>
        refine List.pairwise_cons.2 ⟨?_, ih hrest⟩
        intro x hx
        rcases mem_place.1 hx with rfl | hx
        · have hle : d ≤ x := Char.not_lt.1 hnlt
          exact Std.lt_of_le_of_ne hle (fun heq => hne heq.symm)
        · exact hd x hx

/-- Adds a member. -/
def insert (c : Char) (a : Alphabet) : Alphabet :=
  ⟨place c a.chars, pairwise_place a.sorted⟩

/-- The set of the characters of a list. -/
def ofList (cs : List Char) : Alphabet := cs.foldr insert empty

theorem mem_def {x : Char} {a : Alphabet} : x ∈ a ↔ x ∈ a.chars := Iff.rfl

@[simp] theorem not_mem_empty (x : Char) : ¬ x ∈ empty := by
  simp [mem_def, empty]

@[simp] theorem mem_insert {x c : Char} {a : Alphabet} : x ∈ insert c a ↔ x = c ∨ x ∈ a :=
  mem_place

@[simp] theorem mem_ofList {x : Char} {cs : List Char} : x ∈ ofList cs ↔ x ∈ cs := by
  induction cs with
  | nil => simp [ofList]
  | cons c rest ih =>
    have hcons : ofList (c :: rest) = insert c (ofList rest) := rfl
    simp [hcons, ih]

/-- The members run together as text. -/
def render (a : Alphabet) : String := String.ofList a.chars

end Alphabet

end PhraseStructure
