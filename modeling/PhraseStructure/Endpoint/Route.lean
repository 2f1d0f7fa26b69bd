import PhraseStructure.Endpoint.Evaluation

/-!
# Routes

A request comes with a method, an address and a body, and gets a status and a JSON body back.
Only `POST` on `/evaluate` and `/check` is answered; what follows a question mark in the address
is ignored.
-/

namespace PhraseStructure.Endpoint

/-- What can be asked for. -/
inductive Route where
  | evaluate
  | check
deriving DecidableEq, Repr

/-- A status code and a body. -/
structure Reply where
  status : Nat
  body : String
deriving DecidableEq, Repr

def statusOk : Nat := 200

def statusBadRequest : Nat := 400

def statusNotFound : Nat := 404

def statusMethodNotAllowed : Nat := 405

namespace Reply

/-- A reply with a JSON body on one line. -/
def ofJson (status : Nat) (value : Json.Value) : Reply := ⟨status, value.write .compact⟩

/-- A reply that only tells what is wrong. -/
def ofError (status : Nat) (message : String) : Reply := ofJson status (errorJson message)

/-- A reply to a request that was evaluated or not. -/
def ofResult {α : Type} (toJson : α → Json.Value) : Except Refusal α → Reply
  | .ok a => ofJson statusOk (toJson a)
  | .error e => ofError statusBadRequest e.message

end Reply

/-- Answers the body of a request. -/
def answer (limits : Limits) (route : Route) (body : String) : Reply :=
  match route with
  | .evaluate => .ofResult verdictJson do
    let request ← (EvaluationRequest.read body).mapError .invalidRequest
    evaluate limits request
  | .check => .ofResult classJson do
    let request ← (ClassificationRequest.read body).mapError .invalidRequest
    classify limits request

/-- The part of an address before its first question mark. -/
def pathOf (address : String) : String :=
  String.ofList (address.toList.takeWhile fun c => c != '?')

/-- The route of a path. -/
def Route.ofPath? : String → Option Route
  | "/evaluate" => some evaluate
  | "/check" => some check
  | _ => none

/-- Answers a request. -/
def respond (limits : Limits) (method address body : String) : Reply :=
  match Route.ofPath? (pathOf address) with
  | some route =>
    if method = "POST" then answer limits route body
    else .ofError statusMethodNotAllowed "Method not allowed"
  | none => .ofError statusNotFound "Not found"

/-- The type of the bodies of replies. -/
def contentType : String := "application/json"

/-- What is said of bytes that are no text. -/
def notUtf8 : String := "stream did not contain valid UTF-8"

/-- Answers a request whose body is given as bytes. A body that is no text is refused before the
route is looked at. -/
def respondToBytes (limits : Limits) (method address : String) (body : ByteArray) : Reply :=
  match String.fromUTF8? body with
  | some text => respond limits method address text
  | none => .ofError statusBadRequest ("Unreadable request body: " ++ notUtf8)

end PhraseStructure.Endpoint
