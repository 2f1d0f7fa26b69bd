import PhraseStructure.Grammar

/-!
# Grammars as text

A grammar is written as three declaration lines and a block of rows:

```
N = A S
T = a b
S = S
P = {
    S → aS | A
    A → b | ε
}
```

Neighbouring productions of one nonterminal share a row, so the rows list the productions in
order.
-/

namespace PhraseStructure

/-- A run of neighbouring productions that share their left-hand side. -/
structure Run where
  lhs : Char
  alternatives : List Form
deriving DecidableEq, Repr

namespace Run

/-- Groups productions into maximal runs. -/
def group : List Production → List Run
  | [] => []
  | p :: rest =>
    match group rest with
    | [] => [⟨p.lhs, [p.rhs]⟩]
    | run :: runs =>
      if p.lhs = run.lhs then ⟨run.lhs, p.rhs :: run.alternatives⟩ :: runs
      else ⟨p.lhs, [p.rhs]⟩ :: run :: runs

/-- The productions of a run. -/
def productions (run : Run) : List Production :=
  run.alternatives.map fun rhs => ⟨run.lhs, rhs⟩

/-- Grouping neither loses nor reorders productions. -/
theorem flatMap_productions_group (ps : List Production) :
    (group ps).flatMap productions = ps := by
  induction ps with
  | nil => rfl
  | cons p rest ih =>
    unfold group
    split
    · next h =>
      rw [h] at ih
      simp only [List.flatMap_nil] at ih
      simp [productions, ← ih]
    · next run runs h =>
      rw [h] at ih
      split
      · next heq =>
        rw [← ih]
        simp [productions, ← heq]
      · rw [← ih]
        simp [productions]

/-- The row that shows a run, `    S → aS | A`. -/
def shown (run : Run) : List Char :=
  "    ".toList ++ [run.lhs] ++ " → ".toList
    ++ " | ".toList.intercalate (run.alternatives.map Form.shown)

end Run

namespace Grammar

/-- The lines of the printed grammar. -/
def shownLines (g : Grammar) : List (List Char) :=
  [ "N = ".toList ++ [' '].intercalate (g.nonterminals.chars.map fun c => [c]),
    "T = ".toList ++ [' '].intercalate (g.terminals.chars.map fun c => [c]),
    "S = ".toList ++ [g.start],
    "P = \x7b".toList ] ++ (Run.group g.productions).map Run.shown ++ ["\x7d".toList]

/-- The grammar as text. -/
def render (g : Grammar) : String := String.ofList (['\n'].intercalate g.shownLines)

end Grammar

end PhraseStructure
