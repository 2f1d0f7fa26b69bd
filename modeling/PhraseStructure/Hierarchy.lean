import PhraseStructure.Grammar

/-!
# The hierarchy of grammars

Grammars fall into four classes by the shape of their rules: unrestricted, context-sensitive,
context-free and regular. A rule here may have any form on either side, so the classes are told
apart for rules of every shape; the rules of a `Grammar` rewrite one nonterminal each.
-/

namespace PhraseStructure

/-- A rewriting rule with arbitrary sides. -/
structure Rule where
  left : Form
  right : Form
deriving DecidableEq, Repr

/-- A production as a rule. -/
def Production.toRule (p : Production) : Rule := ⟨[.nonterminal p.lhs], p.rhs⟩

/-- The four classes, from the most to the least general. -/
inductive GrammarClass where
  | unrestricted
  | contextSensitive
  | contextFree
  | regular
deriving DecidableEq, Repr

namespace GrammarClass

/-- The number of the class's type, from 0 to 3. -/
def type : GrammarClass → Nat
  | unrestricted => 0
  | contextSensitive => 1
  | contextFree => 2
  | regular => 3

instance : LE GrammarClass := ⟨fun a b => a.type ≤ b.type⟩

instance (a b : GrammarClass) : Decidable (a ≤ b) :=
  inferInstanceAs (Decidable (a.type ≤ b.type))

/-- All classes in increasing order. -/
def all : List GrammarClass := [unrestricted, contextSensitive, contextFree, regular]

/-- The name of the class. -/
def name : GrammarClass → String
  | unrestricted => "Unrestricted"
  | contextSensitive => "Context-sensitive"
  | contextFree => "Context-free"
  | regular => "Regular"

/-- The label of the class, `Type 3 (Regular)`. -/
def label (c : GrammarClass) : String :=
  "Type " ++ toString c.type ++ " (" ++ c.name ++ ")"

end GrammarClass

/-- On which side of the terminal the nonterminals of a regular grammar stand. -/
inductive Linearity where
  | right
  | left
deriving DecidableEq, Repr

/-- The shape of a right-hand side, as far as regularity depends on it. -/
inductive Shape where
  /-- Nothing or one terminal. -/
  | final
  /-- A terminal and a nonterminal after it. -/
  | rightLinear
  /-- A nonterminal and a terminal after it. -/
  | leftLinear
  | other
deriving DecidableEq, Repr

namespace Shape

/-- The shape of a form. -/
def ofForm : Form → Shape
  | [] => final
  | [.terminal _] => final
  | [.terminal _, .nonterminal _] => rightLinear
  | [.nonterminal _, .terminal _] => leftLinear
  | _ => other

end Shape

namespace Rule

/-- Whether the rule rewrites a single nonterminal. -/
def isContextFree (r : Rule) : Bool :=
  match r.left with
  | [.nonterminal _] => true
  | _ => false

/-- The shape of the right-hand side. -/
def shape (r : Rule) : Shape := Shape.ofForm r.right

end Rule

/-- The side of the nonterminals of regular rules; other rules have none. Right- and left-linear
rules may not be mixed, and rules that are all final count as right-linear. -/
def linearity? (rules : List Rule) : Option Linearity :=
  if rules.all fun r => r.isContextFree && r.shape != .other then
    if rules.any fun r => r.shape == .leftLinear then
      if rules.any fun r => r.shape == .rightLinear then none else some .left
    else some .right
  else none

/-- Whether no rule shrinks a form. The start symbol alone may be erased, if it stands on no
right-hand side. -/
def isContextSensitive (start : Char) (rules : List Rule) : Bool :=
  let symbol := Symbol.nonterminal start
  rules.all fun r =>
    if r.right.isEmpty then
      r.left == [symbol] && !rules.any fun other => other.right.contains symbol
    else r.left.length ≤ r.right.length

/-- The least general class that the rules belong to. -/
def classifyRules (start : Char) (rules : List Rule) : GrammarClass :=
  if (linearity? rules).isSome then .regular
  else if rules.all Rule.isContextFree then .contextFree
  else if isContextSensitive start rules then .contextSensitive
  else .unrestricted

namespace Grammar

/-- The productions as rules. -/
def rules (g : Grammar) : List Rule := g.productions.map Production.toRule

/-- The class of the grammar. -/
def classify (g : Grammar) : GrammarClass := classifyRules g.start g.rules

end Grammar

end PhraseStructure
