import PhraseStructure.Search.Explore

/-!
# Verdicts

What is told about a string and a grammar: the class of the grammar, whether the string belongs
to it, a sentence that says so and names any limit that was hit, and a trace of the derivation.
-/

namespace PhraseStructure

namespace Form

/-- The form with the symbol at a place between asterisks. -/
def marked (form : Form) (position : Nat) : List Char :=
  form.zipIdx.flatMap fun (s, index) => if index = position then ['*', s.char, '*'] else [s.char]

/-- The marked form as a string. -/
def renderMarked (form : Form) (position : Nat) : String := String.ofList (form.marked position)

end Form

namespace Derivation

/-- A line for each step: the form before it with the rewritten symbol marked, and the form after
it, `a*S* → aaS`. -/
def traceLines (d : Derivation) : List String :=
  d.moves.map fun (previous, step) =>
    previous.renderMarked step.position ++ " → " ++ step.form.render

/-- The trace lines as one text. -/
def trace (d : Derivation) : String := "\n".intercalate d.traceLines

end Derivation

/-- A further sentence about a rejection that a limit may have caused. -/
def Finding.caveat (f : Finding) : String :=
  if f.effort.stateLimitHit && !f.belongs then
    " The search ran out of room before finishing, so a longer derivation may exist."
  else if f.truncated then
    match f.effort.stepBound with
    | some bound => " No derivation of at most " ++ toString bound ++ " steps exists."
    | none => ""
  else ""

/-- The sentence that tells what a search found. -/
def verdictSentence (cls : GrammarClass) (input : String) (f : Finding) : String :=
  "Grammar is " ++ cls.label ++ ". String \"" ++ input ++ "\" "
    ++ (if f.belongs then "accepted" else "rejected") ++ "." ++ f.caveat

/-- What is told about a string and a grammar. -/
structure Verdict where
  grammarType : String
  belongs : Bool
  message : String
  derivation : Option String
deriving DecidableEq, Repr

namespace Verdict

/-- The verdict for what a search found. -/
def ofFinding (cls : GrammarClass) (input : String) (f : Finding) : Verdict :=
  { grammarType := cls.label
    belongs := f.belongs
    message := verdictSentence cls input f
    derivation := f.derivation.map Derivation.trace }

end Verdict

end PhraseStructure
