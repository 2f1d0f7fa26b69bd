import PhraseStructure.Json.Value

/-!
# Writing JSON

A value is written on one line without blanks (`Layout.compact`), or with one field per line and
two blanks for each level (`Layout.pretty`). In strings the quote, the backslash and the control
characters below U+0020 are escaped, and all else is written as it is.
-/

namespace PhraseStructure.Json

/-- A hexadecimal digit. -/
def hexDigit (n : Nat) : Char := Nat.digitChar n

/-- A character inside a string literal. -/
def escape (c : Char) : List Char :=
  if c = '"' then ['\\', '"']
  else if c = '\\' then ['\\', '\\']
  else if c = '\x08' then ['\\', 'b']
  else if c = '\x0c' then ['\\', 'f']
  else if c = '\n' then ['\\', 'n']
  else if c = '\r' then ['\\', 'r']
  else if c = '\t' then ['\\', 't']
  else if c.toNat < 0x20 then
    ['\\', 'u', '0', '0', hexDigit (c.toNat / 16), hexDigit (c.toNat % 16)]
  else [c]

/-- A text as a string literal. -/
def quote (cs : List Char) : List Char := '"' :: cs.flatMap escape ++ ['"']

/-- What a string literal denotes, as a string literal. The one without a text is written as a
lone surrogate. -/
def Text.write : Text → List Char
  | some cs => quote cs
  | none => "\"\\ud800\"".toList

/-- Where blanks and line ends go. -/
structure Layout where
  /-- What starts a line at a level of nesting. -/
  lineStart : Nat → List Char
  /-- What stands between a name and its value. -/
  colon : List Char

namespace Layout

/-- All on one line. -/
def compact : Layout := ⟨fun _ => [], [':']⟩

/-- A line for each field or item, two blanks for each level. -/
def pretty : Layout := ⟨fun level => '\n' :: List.replicate (2 * level) ' ', [':', ' ']⟩

/-- Items between brackets. -/
def enclose (l : Layout) (level : Nat) (opening closing : Char) (items : List (List Char)) :
    List Char :=
  if items.isEmpty then [opening, closing]
  else
    opening :: [','].intercalate (items.map (l.lineStart (level + 1) ++ ·))
      ++ l.lineStart level ++ [closing]

end Layout

namespace Value

mutual

/-- A value at a level of nesting. -/
def writeAt (l : Layout) (level : Nat) : Value → List Char
  | null => "null".toList
  | bool true => "true".toList
  | bool false => "false".toList
  | number written => written
  | string text => Text.write text
  | array items => l.enclose level '[' ']' (writeItems l (level + 1) items)
  | object fields => l.enclose level '{' '}' (writeFields l (level + 1) fields)

/-- The items of an array. -/
def writeItems (l : Layout) (level : Nat) : List Value → List (List Char)
  | [] => []
  | value :: rest => writeAt l level value :: writeItems l level rest

/-- The fields of an object. -/
def writeFields (l : Layout) (level : Nat) : List (Text × Value) → List (List Char)
  | [] => []
  | (name, value) :: rest =>
    (Text.write name ++ l.colon ++ writeAt l level value) :: writeFields l level rest

end

/-- A value as a document. -/
def write (l : Layout) (value : Value) : String := String.ofList (value.writeAt l 0)

end Value

end PhraseStructure.Json
