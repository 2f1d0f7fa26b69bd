import PhraseStructure.Text.Blank
import PhraseStructure.Source.Cause

/-!
# Tokens of a grammar line

A line is cut into punctuation marks and words. Blanks and commas only separate, a `#` starts a
comment that runs to the end of the line, `->` is another spelling of `→` and `λ` of `ε`. A dash
that starts no arrow makes the line unreadable.

* `Token.scan` reads a line.
* `Token.chars` writes a token back; a scanned line loses only separators and its comment.
-/

namespace PhraseStructure.Source

/-- A unit of a grammar line. -/
inductive Token where
  | equals
  | bar
  | arrow
  | openBrace
  | closeBrace
  | epsilon
  | word (letters : List Char)
deriving DecidableEq, Repr

namespace Token

/-- The characters that show a token. -/
def chars : Token → List Char
  | equals => ['=']
  | bar => ['|']
  | arrow => ['→']
  | openBrace => ['{']
  | closeBrace => ['}']
  | epsilon => ['ε']
  | word letters => letters

/-- The token as text. -/
def render (t : Token) : String := String.ofList t.chars

/-- The token that a single character makes by itself. -/
def ofMark? : Char → Option Token
  | '=' => some equals
  | '|' => some bar
  | '→' => some arrow
  | '{' => some openBrace
  | '}' => some closeBrace
  | 'ε' => some epsilon
  | 'λ' => some epsilon
  | _ => none

/-- Whether a character only separates tokens. -/
def isSeparator (c : Char) : Bool := Text.isBlank c || c == ','

/-- Whether a character can stand in a word: it is no mark, no separator, no dash and starts no
comment. -/
def isLetter (c : Char) : Bool :=
  (ofMark? c).isNone && !isSeparator c && c != '#' && c != '-'

/-- Puts the word read so far, kept in reverse, before the tokens that follow it. -/
def flush (pending : List Char) (tokens : List Token) : List Token :=
  if pending.isEmpty then tokens else word pending.reverse :: tokens

/-- Reads the rest of a line, given the letters of an unfinished word in reverse. -/
def scanFrom (pending : List Char) : List Char → Except Cause (List Token)
  | [] => .ok (flush pending [])
  | '#' :: _ => .ok (flush pending [])
  -- The two characters of an arrow are taken together, since `>` alone is a letter.
  | '-' :: '>' :: rest => do
    let tokens ← scanFrom [] rest
    return flush pending (arrow :: tokens)
  | '-' :: _ => .error (.invalidSymbol "-")
  | c :: rest =>
    match ofMark? c with
    | some mark => do
      let tokens ← scanFrom [] rest
      return flush pending (mark :: tokens)
    | none =>
      if isSeparator c then do
        let tokens ← scanFrom [] rest
        return flush pending tokens
      else
        scanFrom (c :: pending) rest

/-- The tokens of a line. -/
def scan (line : List Char) : Except Cause (List Token) := scanFrom [] line

end Token

end PhraseStructure.Source
