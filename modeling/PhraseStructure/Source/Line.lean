import PhraseStructure.Symbol
import PhraseStructure.Source.Token

/-!
# Lines of a grammar text

A line is blank, declares a section (`N = …`, `T = …`, `S = …`), opens the block of rows
(`P = {`), is a row of it, or closes it. The opening line may carry a row, and a row's line may
close the block.
-/

namespace PhraseStructure.Source

/-- The sections that are declared by a list of words. -/
inductive Section where
  | nonterminals
  | terminals
  | start
deriving DecidableEq, Repr

namespace Section

/-- The letter that names the section. -/
def letter : Section → Char
  | nonterminals => 'N'
  | terminals => 'T'
  | start => 'S'

end Section

/-- The letter that names the block of rows. -/
def blockLetter : Char := 'P'

/-- A left-hand side with its alternatives. -/
structure Row where
  lhs : Char
  alternatives : List Form
deriving DecidableEq, Repr

/-- What a line of a grammar text says. -/
inductive Line where
  | blank
  | header (sec : Section) (words : List (List Char))
  | openBlock (row : Option Row) (closes : Bool)
  | row (row : Row) (closes : Bool)
  | closeBlock
deriving DecidableEq, Repr

/-- The symbol of a character on a right-hand side. -/
def symbolOfChar (c : Char) : Except Cause Symbol :=
  match Symbol.ofChar? c with
  | some s => .ok s
  | none => .error (.invalidSymbol c.toString)

/-- The symbols of one token of an alternative. An `ε` stands for nothing. -/
def formOfToken : Token → Except Cause Form
  | .epsilon => .ok []
  | .word letters => letters.mapM symbolOfChar
  | other => .error (.unexpectedToken other.render)

/-- An alternative: the symbols of its tokens, run together. -/
def formOfTokens (tokens : List Token) : Except Cause Form := do
  let pieces ← tokens.mapM formOfToken
  return pieces.flatten

/-- The alternatives of a row, which bars divide. -/
def alternativesOfTokens (tokens : List Token) : Except Cause (List Form) :=
  (tokens.splitOn .bar).mapM formOfTokens

/-- A left-hand side is a single capital. -/
def leftHandSide : Option Token → Except Cause Char
  | some (.word [c]) =>
    if c.isUpper then .ok c else .error (.invalidSymbol c.toString)
  | some (.word letters) => .error (.multiSymbolLeftHandSide (String.ofList letters))
  | some .arrow => .error .missingLeftHandSide
  | none => .error .missingLeftHandSide
  | some other => .error (.unexpectedToken other.render)

/-- A row: a left-hand side, an arrow and alternatives. -/
def Row.ofTokens (tokens : List Token) : Except Cause Row := do
  let lhs ← leftHandSide tokens.head?
  match tokens.drop 1 with
  | .arrow :: rest =>
    let alternatives ← alternativesOfTokens rest
    return ⟨lhs, alternatives⟩
  | _ => .error .missingArrow

/-- Takes off a closing brace at the end, and says whether there was one. -/
def takeClose (tokens : List Token) : List Token × Bool :=
  if tokens.getLast? = some .closeBrace then (tokens.dropLast, true) else (tokens, false)

/-- A word of a declaration. -/
def wordOfToken : Token → Except Cause (List Char)
  | .word letters => .ok letters
  | other => .error (.unexpectedToken other.render)

namespace Line

/-- What follows `N =`, `T =` or `S =`. -/
def ofHeader (sec : Section) (tokens : List Token) : Except Cause Line := do
  let words ← tokens.mapM wordOfToken
  return header sec words

/-- What follows `P =`. -/
def ofBlockHeader : List Token → Except Cause Line
  | .openBrace :: rest =>
    let (body, closes) := takeClose rest
    if body.isEmpty then .ok (openBlock none closes)
    else do
      let row ← Row.ofTokens body
      return openBlock (some row) closes
  | other :: _ => .error (.unexpectedToken other.render)
  | [] => .error (.unexpectedToken "end of line")

/-- What a line says that is no header and not blank. -/
def ofBody (inBlock : Bool) (tokens : List Token) : Except Cause Line :=
  if tokens = [.closeBrace] then
    if inBlock then .ok closeBlock else .error (.unexpectedToken "\x7d")
  else if inBlock then
    let (body, closes) := takeClose tokens
    do
      let row ← Row.ofTokens body
      return .row row closes
  else if tokens.contains .arrow then .error .ruleOutsideBlock
  else .error .unexpectedLine

/-- What a line says, given whether the block of rows is open before it. -/
def ofTokens (inBlock : Bool) : List Token → Except Cause Line
  | [] => .ok blank
  -- A header is one wherever it stands, also inside the block.
  | .word ['N'] :: .equals :: rest => ofHeader .nonterminals rest
  | .word ['T'] :: .equals :: rest => ofHeader .terminals rest
  | .word ['S'] :: .equals :: rest => ofHeader .start rest
  | .word ['P'] :: .equals :: rest => ofBlockHeader rest
  | tokens => ofBody inBlock tokens

/-- What the characters of a line say. -/
def ofChars (inBlock : Bool) (line : List Char) : Except Cause Line := do
  let tokens ← Token.scan line
  ofTokens inBlock tokens

end Line

end PhraseStructure.Source
