/-!
# JSON values

The values that a JSON document denotes. A string literal may escape one half of a surrogate pair
without the other: it is well formed, but denotes no text.
-/

namespace PhraseStructure.Json

/-- What a string literal denotes: a text, or none if it escapes half a surrogate pair. -/
abbrev Text := Option (List Char)

/-- A JSON value. Fields are kept in order, repeated ones too, and numbers as they are written. -/
inductive Value where
  | null
  | bool (b : Bool)
  | number (written : List Char)
  | string (text : Text)
  | array (items : List Value)
  | object (fields : List (Text × Value))
deriving Repr, Inhabited

namespace Value

/-- The string value of a text. -/
def ofString (s : String) : Value := string (some s.toList)

/-- The value of an optional text, null if it is missing. -/
def ofString? : Option String → Value
  | some s => ofString s
  | none => null

/-- An object with the given names. -/
def ofFields (fields : List (String × Value)) : Value :=
  object (fields.map fun (name, value) => (some name.toList, value))

end Value

end PhraseStructure.Json
