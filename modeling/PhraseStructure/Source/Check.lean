import PhraseStructure.Source.Outline

/-!
# From an outline to a grammar

The sections of a text are compared with each other: declared words are symbols of the right
kind, the start symbol exists, and nothing undeclared is used. A set that is not declared is
collected from its uses. All problems are reported together, except that nothing after an unusable
start symbol is looked at.

* `Source.read` is the whole way from text to grammar.
-/

namespace PhraseStructure.Source

/-- The symbol of a word of one character, if it is of the wanted kind. -/
def declaredChar? (wanted : Symbol → Bool) : List Char → Option Char
  | [c] =>
    match Symbol.ofChar? c with
    | some s => if wanted s then some c else none
    | none => none
  | _ => none

namespace Declaration

/-- The declared symbols of a kind. -/
def alphabet (d : Declaration) (wanted : Symbol → Bool) : Alphabet :=
  .ofList (d.words.filterMap (declaredChar? wanted))

/-- The declared words that are no symbol of the kind. -/
def badWords (d : Declaration) (wanted : Symbol → Bool) : List Problem :=
  (d.words.filter fun word => (declaredChar? wanted word).isNone).map fun word =>
    .atLine d.line (.invalidSymbol (String.ofList word))

end Declaration

/-- The start symbol and its line, from the `S =` line. -/
def startSymbol : Option Declaration → Except Problem (Char × Nat)
  | none => .error (.whole .missingStartSymbol)
  | some ⟨[], line⟩ => .error (.atLine line .missingStartSymbol)
  | some ⟨[[c]], line⟩ =>
    if c.isUpper then .ok (c, line) else .error (.atLine line (.invalidSymbol c.toString))
  | some ⟨words, line⟩ =>
    .error (.atLine line (.invalidSymbol (String.ofList ([' '].intercalate words))))

/-- Whether a symbol is missing from its declared set. A set that is not declared lacks nothing. -/
def lacks (declared : Option Alphabet) (c : Char) : Bool :=
  match declared with
  | some a => !decide (c ∈ a)
  | none => false

/-- The undeclared symbols of a production, left-hand side first. -/
def undeclaredIn (nonterminals terminals : Option Alphabet) (entry : Production × Nat) :
    List Problem :=
  let (p, line) := entry
  let left : List Problem :=
    if lacks nonterminals p.lhs then [.atLine line (.undeclaredNonterminal p.lhs)] else []
  let right : List Problem := p.rhs.filterMap fun s =>
    let declared := match s with
      | .nonterminal _ => nonterminals
      | .terminal _ => terminals
    if lacks declared s.char then some (.atLine line (.undeclaredSymbol s.char)) else none
  left ++ right

/-- The number of different left-hand sides. -/
def rowCount (productions : List Production) : Nat :=
  (productions.map Production.lhs).eraseDups.length

/-- The nonterminals that the productions and the start symbol use. -/
def usedNonterminals (start : Char) (productions : List Production) : Alphabet :=
  .ofList (start :: productions.flatMap fun p =>
    p.lhs :: p.rhs.filterMap fun s => if s.isNonterminal then some s.char else none)

/-- The terminals that the productions use. -/
def usedTerminals (productions : List Production) : Alphabet :=
  .ofList (productions.flatMap fun p =>
    p.rhs.filterMap fun s => if s.isTerminal then some s.char else none)

namespace Outline

/-- The declared nonterminals. -/
def declaredNonterminals (o : Outline) : Option Alphabet :=
  o.nonterminals.map fun d => d.alphabet Symbol.isNonterminal

/-- The declared terminals. -/
def declaredTerminals (o : Outline) : Option Alphabet :=
  o.terminals.map fun d => d.alphabet Symbol.isTerminal

/-- The words of the declarations that are no symbols of their kind. -/
def badWords (o : Outline) : List Problem :=
  (o.nonterminals.map fun d => d.badWords Symbol.isNonterminal).getD []
    ++ (o.terminals.map fun d => d.badWords Symbol.isTerminal).getD []

/-- The problems of an outline whose start symbol is usable. -/
def problemsWith (o : Outline) (maxRules : Nat) (start : Char) (startLine : Nat) :
    List Problem :=
  let undeclaredStart : List Problem :=
    if lacks o.declaredNonterminals start then
      [.atLine startLine (.undeclaredStartSymbol start)]
    else []
  let undeclared :=
    o.productions.flatMap (undeclaredIn o.declaredNonterminals o.declaredTerminals)
  let count := rowCount (o.productions.map Prod.fst)
  let tooMany : List Problem :=
    if maxRules < count then [.whole (.tooManyRules count maxRules)] else []
  o.badWords ++ undeclaredStart ++ undeclared ++ tooMany

/-- The grammar of an outline without problems. -/
def assemble (o : Outline) (start : Char) : Grammar :=
  let productions := o.productions.map Prod.fst
  { nonterminals := o.declaredNonterminals.getD (usedNonterminals start productions)
    terminals := o.declaredTerminals.getD (usedTerminals productions)
    start
    productions }

/-- Compares the sections of an outline. -/
def check (o : Outline) (maxRules : Nat) : Except (List Problem) Grammar :=
  match startSymbol o.start with
  -- Undeclared symbols and surplus rows are not looked for any more.
  | .error problem => .error (o.badWords ++ [problem])
  | .ok (start, startLine) =>
    match o.problemsWith maxRules start startLine with
    | [] => .ok (o.assemble start)
    | problems => .error problems

/-- The grammar of an outline, or all problems of its lines, or else of its sections. -/
def toGrammar (o : Outline) (maxRules : Nat) : Except (List Problem) Grammar :=
  match o.problems with
  | [] => o.check maxRules
  | problems => .error problems.reverse

end Outline

/-- Reads a grammar text that may have at most `maxRules` different left-hand sides. -/
def read (maxRules : Nat) (text : String) : Except (List Problem) Grammar :=
  (Outline.ofChars text.toList).toGrammar maxRules

end PhraseStructure.Source
