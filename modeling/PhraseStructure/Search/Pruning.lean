import PhraseStructure.Hierarchy
import PhraseStructure.Yield

/-!
# Pruning

Forms that can no longer become the wanted string are left out of a search. Terminals are never
rewritten, so a form with too many of them is hopeless, and so is one whose outer terminals differ
from those of the string. In a linear grammar one end of every form is settled, and only that end
is compared.
-/

namespace PhraseStructure

/-- Which tests a search applies to forms. -/
inductive Strategy where
  /-- The terminals before the nonterminal are compared. -/
  | rightLinear
  /-- The terminals after the nonterminal are compared. -/
  | leftLinear
  /-- Both ends are compared, and the shortest yield. -/
  | general
deriving DecidableEq, Repr

namespace Strategy

/-- The strategy for a grammar that is taken to be of the given class. -/
def forGrammar (g : Grammar) : GrammarClass → Strategy
  | .regular =>
    match linearity? g.rules with
    | some .left => leftLinear
    | _ => rightLinear
  | _ => general

def name : Strategy → String
  | rightLinear => "right-linear"
  | leftLinear => "left-linear"
  | general => "general"

def checksStart : Strategy → Bool
  | leftLinear => false
  | _ => true

def checksEnd : Strategy → Bool
  | rightLinear => false
  | _ => true

def checksYield : Strategy → Bool
  | general => true
  | _ => false

end Strategy

namespace Form

/-- The characters of the terminals before the first nonterminal. -/
def leading (form : Form) : List Char := chars (form.takeWhile Symbol.isTerminal)

/-- The number of terminals. -/
def terminalCount (form : Form) : Nat := form.countP Symbol.isTerminal

end Form

/-- What is known about the wanted string when forms are tested. -/
structure Sieve where
  strategy : Strategy
  target : List Char
  yields : ShortestYields

namespace Sieve

/-- Whether the terminals at the start of a form open the string. -/
def startFits (p : Sieve) (form : Form) : Bool := form.leading.isPrefixOf p.target

/-- Whether the terminals at the end of a form close the string. -/
def endFits (p : Sieve) (form : Form) : Bool :=
  Form.leading form.reverse |>.isPrefixOf p.target.reverse

/-- Whether the shortest yield of a form is no longer than the string. -/
def yieldFits (p : Sieve) (form : Form) : Bool :=
  match p.yields.ofForm? form with
  | some n => n ≤ p.target.length
  | none => false

/-- Whether a form may still become the string, as far as the strategy looks. -/
def passes (p : Sieve) (form : Form) : Bool :=
  form.terminalCount ≤ p.target.length
    && (!p.strategy.checksStart || p.startFits form)
    && (!p.strategy.checksEnd || p.endFits form)
    && (!p.strategy.checksYield || p.yieldFits form)

end Sieve

end PhraseStructure
