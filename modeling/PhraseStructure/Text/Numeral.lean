/-!
# Decimal numerals

A numeral is a row of ASCII digits that a sign may stand before. Its value is compared with a
largest value, whatever the number of digits.
-/

namespace PhraseStructure.Text

/-- The value of a row of digits, which has at least one. -/
def digitsValue? (cs : List Char) : Option Nat :=
  if !cs.isEmpty && cs.all Char.isDigit then
    some (cs.foldl (fun n c => 10 * n + (c.toNat - '0'.toNat)) 0)
  else none

/-- A value that is at most `max`. -/
def within (max : Nat) (value : Option Nat) : Option Nat := value.filter (· ≤ max)

/-- An unsigned numeral; a plus sign may stand before it. -/
def unsigned? (max : Nat) (s : String) : Option Nat :=
  match s.toList with
  | '+' :: ds => within max (digitsValue? ds)
  | ds => within max (digitsValue? ds)

/-- A numeral of a number that is not negative. A minus sign may stand before zero. -/
def nonnegative? (max : Nat) (s : String) : Option Nat :=
  match s.toList with
  | '-' :: ds => within 0 (digitsValue? ds)
  | '+' :: ds => within max (digitsValue? ds)
  | ds => within max (digitsValue? ds)

end PhraseStructure.Text
