import PhraseStructure.Grammar
import PhraseStructure.Limits

/-!
# Shortest yields

How short a terminal string each nonterminal can become. The table is found by going over the
productions again and again: a production whose right-hand side has a known total may lower the
entry of its left-hand side, and a pass that changes nothing ends the search. A nonterminal
without an entry becomes no terminal string at all. Totals saturate at the largest count.
-/

namespace PhraseStructure

/-- The known shortest yields of nonterminals. -/
structure ShortestYields where
  entries : List (Char × Nat)
deriving DecidableEq, Repr

namespace ShortestYields

/-- The table that knows nothing. -/
def empty : ShortestYields := ⟨[]⟩

/-- The entry of a nonterminal. -/
def shortest? (t : ShortestYields) (c : Char) : Option Nat := t.entries.lookup c

/-- Sets the entry of a nonterminal. -/
def insert (t : ShortestYields) (c : Char) (n : Nat) : ShortestYields :=
  ⟨(c, n) :: t.entries.filter fun entry => entry.1 != c⟩

/-- Removing the entries of another nonterminal changes no look-up. -/
theorem lookup_filter_ne {c d : Char} (h : d ≠ c) (entries : List (Char × Nat)) :
    (entries.filter fun entry => entry.1 != c).lookup d = entries.lookup d := by
  induction entries with
  | nil => rfl
  | cons entry rest ih =>
    obtain ⟨e, m⟩ := entry
    by_cases he : e = c
    · have hd : (d == c) = false := by simpa using h
      simp [he, List.lookup_cons, ih, hd]
    · simp [he, List.lookup_cons, ih]

/-- Only the set entry changes. -/
theorem shortest?_insert (t : ShortestYields) (c d : Char) (n : Nat) :
    (t.insert c n).shortest? d = if d = c then some n else t.shortest? d := by
  by_cases h : d = c
  · subst h
    simp [shortest?, insert]
  · have hd : (d == c) = false := by simpa using h
    simp [shortest?, insert, List.lookup_cons, h, hd, lookup_filter_ne h]

/-- The shortest yield of a symbol. -/
def ofSymbol? (t : ShortestYields) : Symbol → Option Nat
  | .terminal _ => some 1
  | .nonterminal c => t.shortest? c

/-- The shortest yield of a form: the total of its symbols, if all are known. -/
def ofForm? (t : ShortestYields) : Form → Option Nat
  | [] => some 0
  | s :: rest =>
    match t.ofSymbol? s, t.ofForm? rest with
    | some n, some m => some (saturate (n + m))
    | _, _ => none

/-- Whether some nonterminal becomes the empty string. -/
def hasNullable (t : ShortestYields) : Bool := t.entries.any fun entry => entry.2 == 0

/-- Whether a value is less than an entry, which an absent entry does not prevent. -/
def improves (n : Nat) : Option Nat → Bool
  | none => true
  | some known => n < known

/-- Lowers the entry of a production's left-hand side, if the production gives a shorter yield. -/
def relax (t : ShortestYields) (p : Production) : ShortestYields :=
  match t.ofForm? p.rhs with
  | some n => if improves n (t.shortest? p.lhs) then t.insert p.lhs n else t
  | none => t

/-- One pass over the productions, each using what the ones before it found. -/
def pass (t : ShortestYields) (productions : List Production) : ShortestYields :=
  productions.foldl relax t

/-- Passes until one changes nothing, at most `n` times. -/
def settle (productions : List Production) : Nat → ShortestYields → ShortestYields
  | 0, t => t
  -- An entry only ever falls, so an equal table is one that did not change.
  | n + 1, t =>
    let next := t.pass productions
    if next = t then t else settle productions n next

/-- The shortest yields of a grammar. As a shortest yield needs no nonterminal inside itself, one
pass for each left-hand side is enough; there are at most as many as productions. -/
def ofGrammar (g : Grammar) : ShortestYields :=
  settle g.productions g.productions.length empty

end ShortestYields

end PhraseStructure
