import PhraseStructure.Endpoint.Request
import PhraseStructure.Json.Writer
import PhraseStructure.Source.Check
import PhraseStructure.Verdict

/-!
# Evaluating requests

A request is answered from its own fields alone. The fields are looked at before the grammar is
read, the grammar text first.
-/

namespace PhraseStructure.Endpoint

/-- A reason why a request cannot be answered. -/
inductive Refusal where
  | malformedGrammar (problems : List Source.Problem)
  | missingGrammar
  /-- There is no string to evaluate. The empty string is one. -/
  | missingInput
  | invalidRequest (fault : RequestFault)
deriving DecidableEq, Repr

namespace Refusal

/-- The words for an error. -/
def message : Refusal → String
  | malformedGrammar problems => "Malformed grammar:\n" ++ Located.renderAll problems
  | missingGrammar => "Missing required field: grammar_text"
  | missingInput => "Missing required field: input_string"
  | invalidRequest fault => "Invalid JSON request: " ++ fault.message

end Refusal

/-- Reads a grammar within the limits. -/
def readGrammar (limits : Limits) (text : String) : Except Refusal Grammar :=
  (Source.read limits.maxRules text).mapError .malformedGrammar

/-- Classifies the grammar of a request and looks for a derivation of its string. -/
def evaluate (limits : Limits) (request : EvaluationRequest) : Except Refusal Verdict :=
  match request.grammarText, request.inputString with
  | none, _ => .error .missingGrammar
  | some _, none => .error .missingInput
  | some text, some input => do
    let g ← readGrammar limits text
    let cls := g.classify
    return .ofFinding cls input (search g cls input limits.search)

/-- Classifies the grammar of a request. -/
def classify (limits : Limits) (request : ClassificationRequest) : Except Refusal GrammarClass :=
  match request.grammarText with
  | none => .error .missingGrammar
  | some text => do
    let g ← readGrammar limits text
    return g.classify

/-- A verdict as a JSON object. -/
def verdictJson (v : Verdict) : Json.Value :=
  .ofFields [
    ("grammar_type", .ofString v.grammarType),
    ("belongs_to_grammar", .bool v.belongs),
    ("message", .ofString v.message),
    ("derivation", .ofString? v.derivation)]

/-- The class of a grammar as a JSON object. -/
def classJson (cls : GrammarClass) : Json.Value :=
  .ofFields [("grammar_type", .ofString cls.label)]

/-- An error message as a JSON object. -/
def errorJson (message : String) : Json.Value := .ofFields [("error", .ofString message)]

end PhraseStructure.Endpoint
