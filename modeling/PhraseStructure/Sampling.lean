import PhraseStructure.Derivation
import PhraseStructure.Located

/-!
# Sampling derivations

A random derivation rewrites the leftmost nonterminal by a production drawn from all productions
of it. Randomness comes from a source of 32-bit numbers, a state `σ` with a function `next`. A
draw `v` picks the index `v * n / 2 ^ 32` of `n` choices; draws in the uneven rest of the range
are thrown away, so that every index is equally likely.
-/

namespace PhraseStructure.Sampling

/-- The number of values a draw can take, the 32nd power of two. -/
def drawRange : Nat := 4294967296

/-- A draw is used if the low half of its product with `n` is less than the largest `n * 2 ^ k`
below `2 ^ 32`; this is the greatest such low half. -/
def zone (n : Nat) : Nat := n <<< (31 - n.log2) - 1

/-- The index of `n` choices that a draw picks. -/
def indexOf (v : UInt32) (n : Nat) : Nat := v.toNat * n / drawRange

/-- A draw picks one of the choices. -/
theorem indexOf_lt (v : UInt32) {n : Nat} (h : 0 < n) : indexOf v n < n := by
  unfold indexOf drawRange
  have hv : v.toNat < 2 ^ 32 := v.toNat_lt
  exact Nat.div_lt_of_lt_mul (Nat.mul_lt_mul_of_pos_right hv h)

/-- Whether a draw is used for `n` choices. -/
def accepts (v : UInt32) (n : Nat) : Bool := v.toNat * n % drawRange ≤ zone n

section

variable {σ : Type} (next : σ → UInt32 × σ)

/-- Draws an index of `n` choices, throwing away at most `fuel` draws. -/
def drawIndex (n : Nat) : (fuel : Nat) → σ → Nat × σ
  | 0, s =>
    let (v, s) := next s
    (indexOf v n, s)
  | fuel + 1, s =>
    let (v, s) := next s
    if accepts v n then (indexOf v n, s) else drawIndex n fuel s

/-- Draws an element of a list. From an empty list nothing is drawn. -/
def choose {α : Type} : List α → σ → Option (α × σ)
  | [], _ => none
  | x :: rest, s =>
    let (index, s) := drawIndex next (rest.length + 1) drawRange s
    some ((x :: rest).getD index x, s)

/-- A reason for a derivation to stay unfinished. -/
inductive Cause where
  /-- A nonterminal was reached that no production rewrites. -/
  | noProductions (c : Char)
  /-- The derivation had a nonterminal left after this many steps. -/
  | stepLimit (steps : Nat)
deriving DecidableEq, Repr

namespace Cause

/-- The words for a cause. -/
def message : Cause → String
  | noProductions c => "No production rewrites nonterminal `" ++ c.toString ++ "`"
  | stepLimit steps => "Derivation did not finish within " ++ toString steps ++ " steps"

instance : Message Cause := ⟨message⟩

end Cause

/-- A cause, which concerns the grammar as a whole. -/
abbrev Problem := Located Cause

/-- Rewrites a form until it is terminal, in at most `remaining` steps; `taken` are the steps so
far, newest first. -/
def walk (g : Grammar) (maxSteps : Nat) :
    (remaining : Nat) → Form → (taken : List Step) → σ → Except Problem (List Step) × σ
  | remaining, form, taken, s =>
    match form.split? with
    | none => (.ok taken.reverse, s)
    -- The limit is looked at before the productions: nothing is drawn for a step too many.
    | some cut =>
      match remaining with
      | 0 => (.error (.whole (.stepLimit maxSteps)), s)
      | remaining + 1 =>
        match choose next (g.leftmostSteps form) s with
        | none => (.error (.whole (.noProductions cut.head)), s)
        | some (step, s) => walk g maxSteps remaining step.form (step :: taken) s

/-- A random derivation from a nonterminal. -/
def generateFrom (g : Grammar) (start : Char) (maxSteps : Nat) (s : σ) :
    Except Problem Derivation × σ :=
  let (steps, s) := walk next g maxSteps maxSteps [.nonterminal start] [] s
  (steps.map fun steps => ⟨start, steps⟩, s)

/-- A random derivation from the start symbol. -/
def generate (g : Grammar) (maxSteps : Nat) (s : σ) : Except Problem Derivation × σ :=
  generateFrom next g g.start maxSteps s

/-- Tries again, up to `attempts` times, while derivations stay unfinished for their length. -/
def sample (g : Grammar) (maxSteps : Nat) : (attempts : Nat) → σ → Except Problem Derivation × σ
  | 0, s => (.error (.whole (.stepLimit maxSteps)), s)
  | attempts + 1, s =>
    match generate next g maxSteps s with
    | (.error ⟨_, .stepLimit _⟩, s) => sample g maxSteps attempts s
    | settled => settled

end

/-- A source that hands out given numbers and goes on as a linear congruential generator. -/
structure Draws where
  given : List UInt32 := []
  state : UInt32 := 0
deriving DecidableEq, Repr

namespace Draws

/-- The next number. -/
def next : Draws → UInt32 × Draws
  | ⟨v :: rest, state⟩ => (v, ⟨rest, state⟩)
  | ⟨[], state⟩ =>
    let state := state * 1664525 + 1013904223
    (state, ⟨[], state⟩)

end Draws

end PhraseStructure.Sampling
