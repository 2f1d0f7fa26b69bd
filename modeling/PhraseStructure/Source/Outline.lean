import PhraseStructure.Text.Line
import PhraseStructure.Grammar
import PhraseStructure.Source.Line

/-!
# Outline of a grammar text

The outline holds what the lines of a text say, before the sections are compared with each other:
the three declarations and the rows, each with its line. Reading goes on after a bad line, so that
every bad line is reported; a bad line leaves the outline as it was.
-/

namespace PhraseStructure.Source

/-- The words of a section, and the line they stand on. -/
structure Declaration where
  words : List (List Char)
  line : Nat
deriving DecidableEq, Repr

/-- How far the block of rows has been read. Once opened, it keeps its first opening line. -/
inductive Block where
  | unopened
  | inside (openedAt : Nat)
  | outside (openedAt : Nat)
deriving DecidableEq, Repr

namespace Block

def isInside : Block → Bool
  | inside _ => true
  | _ => false

/-- The block after a line that may close it. -/
def resume (closes : Bool) (openedAt : Nat) : Block :=
  if closes then outside openedAt else inside openedAt

/-- The block after a closing brace. -/
def close : Block → Block
  | inside openedAt => outside openedAt
  | other => other

end Block

/-- What has been read of a grammar text. Rows and problems are kept newest first. -/
structure Outline where
  nonterminals : Option Declaration := none
  terminals : Option Declaration := none
  start : Option Declaration := none
  block : Block := .unopened
  rows : List (Row × Nat) := []
  problems : List Problem := []
deriving DecidableEq, Repr

namespace Outline

/-- Notes a problem. -/
def report (o : Outline) (number : Nat) (cause : Cause) : Outline :=
  { o with problems := .atLine number cause :: o.problems }

/-- The declaration of a section, if it has been read. -/
def declaration? (o : Outline) : Section → Option Declaration
  | .nonterminals => o.nonterminals
  | .terminals => o.terminals
  | .start => o.start

/-- Fills the declaration of a section. -/
def setDeclaration (o : Outline) (d : Declaration) : Section → Outline
  | .nonterminals => { o with nonterminals := some d }
  | .terminals => { o with terminals := some d }
  | .start => { o with start := some d }

/-- Declares a section; only its first declaration counts. -/
def declare (o : Outline) (sec : Section) (d : Declaration) : Outline :=
  match o.declaration? sec with
  | some _ => o.report d.line (.duplicateSection sec.letter)
  | none => o.setDeclaration d sec

/-- Leaves a block that is still open, which is a problem of its opening line. -/
def leaveBlock (o : Outline) : Outline :=
  match o.block with
  | .inside openedAt =>
    { o with block := .outside openedAt }.report openedAt .unclosedProductionBlock
  | _ => o

/-- Opens the block of rows; only the first block's row is kept. -/
def openBlock (o : Outline) (number : Nat) (row : Option Row) (closes : Bool) : Outline :=
  match o.block with
  | .unopened =>
    { o with
      block := .resume closes number
      rows := row.toList.map (fun r => (r, number)) ++ o.rows }
  -- A later block is read on, so that its rows are not reported as well, but it keeps the place of
  -- the first one.
  | .inside openedAt | .outside openedAt =>
    { o with block := .resume closes openedAt }.report number (.duplicateSection blockLetter)

/-- Takes up a row of the block. -/
def addRow (o : Outline) (number : Nat) (row : Row) (closes : Bool) : Outline :=
  { o with
    block := if closes then o.block.close else o.block
    rows := (row, number) :: o.rows }

/-- Takes up what one line says. -/
def add (o : Outline) (number : Nat) : Line → Outline
  | .blank => o
  | .header sec words => o.leaveBlock.declare sec ⟨words, number⟩
  | .openBlock row closes => o.openBlock number row closes
  | .row row closes => o.addRow number row closes
  | .closeBlock => { o with block := o.block.close }

/-- Reads one line; a bad one is reported and changes nothing else. -/
def readLine (o : Outline) (line : List Char × Nat) : Outline :=
  match Line.ofChars o.block.isInside line.1 with
  | .ok said => o.add line.2 said
  | .error cause => o.report line.2 cause

/-- Reads the lines of a text, numbered from one. -/
def ofLines (lines : List (List Char)) : Outline :=
  ((lines.zipIdx 1).foldl readLine {}).leaveBlock

/-- Reads a text. -/
def ofChars (text : List Char) : Outline := ofLines (Text.lines text)

/-- The productions of the rows in text order, each with its line. -/
def productions (o : Outline) : List (Production × Nat) :=
  o.rows.reverse.flatMap fun (row, number) =>
    row.alternatives.map fun rhs => (⟨row.lhs, rhs⟩, number)

end Outline

end PhraseStructure.Source
