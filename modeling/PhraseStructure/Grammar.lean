import PhraseStructure.Symbol
import PhraseStructure.Alphabet

/-!
# Grammars

A grammar has nonterminals, terminals, a start symbol and a list of productions, each rewriting
one nonterminal. The order of the productions is part of the grammar: it numbers them and breaks
ties between derivations.
-/

namespace PhraseStructure

/-- A rule that replaces the nonterminal `lhs` by the form `rhs`. -/
structure Production where
  lhs : Char
  rhs : Form
deriving DecidableEq, Repr

namespace Production

/-- The production as it is shown, `S → aS`. -/
def render (p : Production) : String :=
  String.ofList ([p.lhs, ' ', '→', ' '] ++ p.rhs.shown)

end Production

/-- A grammar whose rules rewrite single nonterminals. -/
structure Grammar where
  nonterminals : Alphabet
  terminals : Alphabet
  start : Char
  productions : List Production
deriving DecidableEq

namespace Grammar

/-- The form that every derivation starts from. -/
def startForm (g : Grammar) : Form := [.nonterminal g.start]

/-- The productions of a nonterminal with their numbers, in order. -/
def productionsFor (g : Grammar) (c : Char) : List (Production × Nat) :=
  g.productions.zipIdx.filter fun entry => entry.1.lhs == c

/-- The left-hand sides that occur, each once. -/
def leftHandSides (g : Grammar) : List Char := (g.productions.map Production.lhs).eraseDups

/-- Whether a symbol belongs to the alphabet of its kind. -/
def Declares (g : Grammar) : Symbol → Prop
  | .terminal c => c ∈ g.terminals
  | .nonterminal c => c ∈ g.nonterminals

/-- The promises that every grammar read from text keeps: capitals name the nonterminals, small
letters and digits the terminals, and nothing undeclared is used. -/
structure WellFormed (g : Grammar) : Prop where
  nonterminal_isUpper : ∀ c ∈ g.nonterminals, c.isUpper = true
  terminal_isLower_or_isDigit : ∀ c ∈ g.terminals, (c.isLower || c.isDigit) = true
  start_mem : g.start ∈ g.nonterminals
  lhs_mem : ∀ p ∈ g.productions, p.lhs ∈ g.nonterminals
  rhs_declared : ∀ p ∈ g.productions, ∀ s ∈ p.rhs, g.Declares s

end Grammar

end PhraseStructure
