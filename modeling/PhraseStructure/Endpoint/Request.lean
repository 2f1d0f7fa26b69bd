import PhraseStructure.Json.Reader

/-!
# Requests

A request is a JSON document that names a grammar text and, to have a string evaluated, the
string. It is an object, whose unknown fields are ignored, or an array of the fields in order.
Each field is a text, null or missing; a field may not be given twice.
-/

namespace PhraseStructure.Endpoint

/-- A reason why a document is no request. -/
inductive RequestFault where
  | notJson
  | wrongShape
  | unreadableName
  | repeatedField (name : String)
  | notText (name : String)
  | tooManyItems
deriving DecidableEq, Repr

/-- The words for a fault. -/
def RequestFault.message : RequestFault → String
  | notJson => "not a JSON document"
  | wrongShape => "expected an object or an array"
  | unreadableName => "a field name is not a text"
  | repeatedField name => "field `" ++ name ++ "` is given more than once"
  | notText name => "field `" ++ name ++ "` is not a text"
  | tooManyItems => "too many items"

/-- To have a string evaluated. -/
structure EvaluationRequest where
  grammarText : Option String := none
  inputString : Option String := none
deriving DecidableEq, Repr

/-- To have a grammar classified. -/
structure ClassificationRequest where
  grammarText : Option String := none
deriving DecidableEq, Repr

/-- The text of a field. -/
def fieldText (name : String) : Json.Value → Except RequestFault (Option String)
  | .null => .ok none
  | .string (some cs) => .ok (some (String.ofList cs))
  | _ => .error (.notText name)

/-- The text of the field with a name. -/
def namedField (fields : List (Json.Text × Json.Value)) (name : String) :
    Except RequestFault (Option String) :=
  match fields.filter fun field => field.1 == some name.toList with
  | [] => .ok none
  | [(_, value)] => fieldText name value
  | _ => .error (.repeatedField name)

/-- The texts of the fields with the given names, of an object or an array. -/
def fieldTexts (names : List String) : Json.Value → Except RequestFault (List (Option String))
  | .object fields =>
    if fields.any fun field => field.1.isNone then .error .unreadableName
    else names.mapM (namedField fields)
  | .array items =>
    if names.length < items.length then .error .tooManyItems
    else (names.zip items).mapM fun (name, value) => fieldText name value
  | _ => .error .wrongShape

/-- The texts of the fields of a document. -/
def readFields (names : List String) (body : String) :
    Except RequestFault (List (Option String)) :=
  match Json.read? body with
  | some value => fieldTexts names value
  | none => .error .notJson

namespace EvaluationRequest

/-- Reads a request to evaluate a string. -/
def read (body : String) : Except RequestFault EvaluationRequest := do
  let texts ← readFields ["grammar_text", "input_string"] body
  return ⟨texts.getD 0 none, texts.getD 1 none⟩

/-- The request as a JSON object. -/
def toJson (r : EvaluationRequest) : Json.Value :=
  .ofFields [("grammar_text", .ofString? r.grammarText), ("input_string", .ofString? r.inputString)]

end EvaluationRequest

namespace ClassificationRequest

/-- Reads a request to classify a grammar. -/
def read (body : String) : Except RequestFault ClassificationRequest := do
  let texts ← readFields ["grammar_text"] body
  return ⟨texts.getD 0 none⟩

end ClassificationRequest

end PhraseStructure.Endpoint
