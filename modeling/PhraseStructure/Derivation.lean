import PhraseStructure.Grammar

/-!
# Derivations

A derivation starts from a single nonterminal and rewrites one nonterminal at a time. Each step
records the form it leads to, the number of the production it applies and the place of the
nonterminal it rewrites, so a derivation can be checked against a grammar (`validIn`).
-/

namespace PhraseStructure

/-- One rewriting: the form it leads to, the production applied and where. -/
structure Step where
  form : Form
  production : Nat
  position : Nat
deriving DecidableEq, Repr

/-- A start symbol and the steps taken from it. -/
structure Derivation where
  start : Char
  steps : List Step
deriving DecidableEq, Repr

/-- Whether a step applies its production at its place to the form before it. -/
def Step.follows (g : Grammar) (previous : Form) (step : Step) : Bool :=
  match g.productions[step.production]? with
  | none => false
  | some p =>
    previous[step.position]? == some (.nonterminal p.lhs)
      && previous.take step.position ++ p.rhs ++ previous.drop (step.position + 1) == step.form

namespace Derivation

/-- The number of steps. -/
def length (d : Derivation) : Nat := d.steps.length

/-- The form before the first step. -/
def startForm (d : Derivation) : Form := [.nonterminal d.start]

/-- The form after the last step. -/
def endForm (d : Derivation) : Form :=
  (d.steps.getLast?.map Step.form).getD d.startForm

/-- The characters of the final form. -/
def word (d : Derivation) : String := String.ofList d.endForm.chars

/-- Each step with the form it rewrites. -/
def moves (d : Derivation) : List (Form × Step) :=
  (d.startForm :: d.steps.map Step.form).zip d.steps

/-- Whether the derivation is one of the grammar: it starts at its start symbol, every step
applies its production at its place, and the final form is terminal. -/
def validIn (d : Derivation) (g : Grammar) : Bool :=
  d.start == g.start
    && d.moves.all (fun (previous, step) => step.follows g previous)
    && d.endForm.isTerminal

/-- The forms of the derivation in one line, `S → aS → ab`. -/
def chain (d : Derivation) : String :=
  " → ".intercalate (d.start.toString :: d.steps.map fun step => step.form.render)

end Derivation

namespace Grammar

/-- The ways to rewrite the leftmost nonterminal of a form, in production order. -/
def leftmostSteps (g : Grammar) (form : Form) : List Step :=
  match form.split? with
  | none => []
  | some cut =>
    (g.productionsFor cut.head).map fun (p, number) => ⟨cut.fill p.rhs, number, cut.position⟩

end Grammar

end PhraseStructure
