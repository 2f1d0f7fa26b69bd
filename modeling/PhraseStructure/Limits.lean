/-!
# Limits

How large a grammar may be and how far a search may go. A search follows derivations up to a
number of steps that grows with the length of the string (`SearchLimits.stepBound`), and stores at
most a given number of forms. Counts are 64-bit numbers, and sums stop at the largest.
-/

namespace PhraseStructure

/-- The largest count, one less than the 64th power of two. -/
def maxCount : Nat := 18446744073709551615

/-- A number as a count: too large a number becomes the largest count. -/
def saturate (n : Nat) : Nat := min n maxCount

/-- Saturating a part of a sum early changes nothing. -/
theorem saturate_add_saturate (n m : Nat) : saturate (n + saturate m) = saturate (n + m) := by
  unfold saturate
  omega

/-- How far a search may go. -/
structure SearchLimits where
  /-- Steps allowed for each character of the string. -/
  lengthFactor : Nat := 2
  /-- Further steps allowed; the number of productions if not given. -/
  extraSteps : Option Nat := none
  /-- The number of forms that may be stored. -/
  maxStates : Nat := 100000
  /-- Whether the step bound is lifted when no nonterminal can vanish. -/
  exactIfEpsilonFree : Bool := true
deriving DecidableEq, Repr

namespace SearchLimits

/-- The number of steps that a derivation of a string of the given length may have. The empty
string counts as one character. -/
def stepBound (limits : SearchLimits) (inputLength productionCount : Nat) : Nat :=
  saturate (limits.lengthFactor * max 1 inputLength + limits.extraSteps.getD productionCount)

end SearchLimits

/-- The limits of one evaluation. -/
structure Limits where
  /-- The number of different left-hand sides that a grammar may have. -/
  maxRules : Nat := 10
  search : SearchLimits := {}
deriving DecidableEq, Repr

end PhraseStructure
