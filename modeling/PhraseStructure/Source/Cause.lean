import PhraseStructure.Located

/-!
# What can be wrong with a grammar text
-/

namespace PhraseStructure.Source

/-- A reason to refuse a grammar text. -/
inductive Cause where
  /-- There is no `S =` line, or it names nothing. -/
  | missingStartSymbol
  /-- The start symbol is missing from the declared nonterminals. -/
  | undeclaredStartSymbol (c : Char)
  /-- A word stands for no symbol of the wanted kind. -/
  | invalidSymbol (word : String)
  /-- A row rewrites a nonterminal that is not declared. -/
  | undeclaredNonterminal (c : Char)
  /-- A right-hand side uses a symbol that is not declared. -/
  | undeclaredSymbol (c : Char)
  /-- There are more left-hand sides than allowed. -/
  | tooManyRules (count max : Nat)
  /-- A row has no arrow after its left-hand side. -/
  | missingArrow
  /-- A row starts with its arrow. -/
  | missingLeftHandSide
  /-- A row rewrites more than one symbol. -/
  | multiSymbolLeftHandSide (word : String)
  /-- A section is given twice. -/
  | duplicateSection (letter : Char)
  /-- The block of rows is never closed. -/
  | unclosedProductionBlock
  /-- A row stands before or after the block. -/
  | ruleOutsideBlock
  /-- A token stands where it means nothing. -/
  | unexpectedToken (token : String)
  /-- A line is of no known kind. -/
  | unexpectedLine
deriving DecidableEq, Repr

namespace Cause

/-- The words for a cause. -/
def message : Cause → String
  | missingStartSymbol => "Missing start symbol (expected a `S = <symbol>` line)"
  | undeclaredStartSymbol c =>
    "Start symbol `" ++ c.toString ++ "` is not a declared nonterminal"
  | invalidSymbol word =>
    "`" ++ word ++ "` is not a valid symbol (nonterminals are uppercase letters, "
      ++ "terminals lowercase letters or digits)"
  | undeclaredNonterminal c =>
    "Left-hand side `" ++ c.toString ++ "` is not a declared nonterminal"
  | undeclaredSymbol c =>
    "Symbol `" ++ c.toString ++ "` is not declared as a terminal or nonterminal"
  | tooManyRules count max =>
    "Grammar has " ++ toString count ++ " production rows, at most " ++ toString max
      ++ " are allowed"
  | missingArrow => "Expected `→` after the left-hand side"
  | missingLeftHandSide => "Production has no left-hand side"
  | multiSymbolLeftHandSide word =>
    "Left-hand side `" ++ word ++ "` must be a single nonterminal"
  | duplicateSection letter =>
    "Section `" ++ letter.toString ++ "` is defined more than once"
  | unclosedProductionBlock => "Production block is never closed with `\x7d`"
  | ruleOutsideBlock => "Production found outside the `P = \x7b ... \x7d` block"
  | unexpectedToken token => "Unexpected `" ++ token ++ "`"
  | unexpectedLine => "Expected a `N =`, `T =`, `S =` or `P = \x7b` line"

instance : Message Cause := ⟨message⟩

end Cause

/-- A reason to refuse a grammar text, with its place. -/
abbrev Problem := Located Cause

end PhraseStructure.Source
