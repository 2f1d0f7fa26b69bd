/-!
# Problems and where they are

A problem with a grammar concerns one line of its text or the grammar as a whole. It is shown
with its place in brackets, plainly (`Located.render`) or coloured for a terminal
(`Located.highlight`).
-/

namespace PhraseStructure

/-- Where in a grammar text a problem is. Lines are numbered from one. -/
inductive Place where
  | grammar
  | line (number : Nat)
deriving DecidableEq, Repr

/-- The place in words. -/
def Place.render : Place → String
  | grammar => "grammar"
  | line number => "line " ++ toString number

/-- The words for a kind of problem. -/
class Message (α : Type) where
  message : α → String

/-- A problem together with its place. -/
structure Located (α : Type) where
  place : Place
  cause : α
deriving DecidableEq, Repr

namespace Located

variable {α : Type}

/-- A problem of one line. -/
def atLine (number : Nat) (cause : α) : Located α := ⟨.line number, cause⟩

/-- A problem of the grammar as a whole. -/
def whole (cause : α) : Located α := ⟨.grammar, cause⟩

variable [Message α]

/-- The problem after its bracketed place. -/
def render (p : Located α) : String :=
  "[" ++ p.place.render ++ "] " ++ Message.message p.cause

/-- All problems, one per line. -/
def renderAll (ps : List (Located α)) : String := "\n".intercalate (ps.map render)

end Located

/-- A bracketed label in red, then a text in bold, for a terminal. -/
def highlighted (label text : String) : String :=
  "\x1b[31;49;1m[" ++ label ++ "]\x1b[39;49;1m  " ++ text ++ "\x1b[0m"

/-- The problem coloured for a terminal. -/
def Located.highlight {α : Type} [Message α] (p : Located α) : String :=
  highlighted p.place.render (Message.message p.cause)

end PhraseStructure
