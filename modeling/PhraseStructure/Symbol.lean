/-!
# Symbols and sentential forms

A symbol of a grammar is a terminal or a nonterminal, each named by one character. The character
decides the kind when symbols are read from text: an ASCII capital is a nonterminal, an ASCII
small letter or digit a terminal, and any other character is no symbol.

* `Symbol.ofChar?` reads one character.
* `Form.split?` cuts a form at its leftmost nonterminal; everything before it is terminal.
* `Form.render` writes a form, the empty one as `ε`.
-/

namespace PhraseStructure

/-- A letter of a sentential form. -/
inductive Symbol where
  | terminal (c : Char)
  | nonterminal (c : Char)
deriving DecidableEq, Repr, Inhabited

namespace Symbol

/-- The symbol that a character stands for in a grammar text. -/
def ofChar? (c : Char) : Option Symbol :=
  if c.isUpper then some (nonterminal c)
  else if c.isLower || c.isDigit then some (terminal c)
  else none

/-- The character that names the symbol. -/
def char : Symbol → Char
  | terminal c => c
  | nonterminal c => c

def isTerminal : Symbol → Bool
  | terminal _ => true
  | nonterminal _ => false

def isNonterminal : Symbol → Bool
  | terminal _ => false
  | nonterminal _ => true

/-- The place of a symbol in the order of symbols: terminals come before nonterminals, and symbols
of one kind are ordered by code point. -/
def rank : Symbol → Nat
  | terminal c => c.toNat
  | nonterminal c => 0x110000 + c.toNat

instance : Ord Symbol := ⟨compareOn rank⟩

/-- Whether a symbol comes no later than another. -/
def le (a b : Symbol) : Bool := (compare a b).isLE

/-- Different symbols have different places. -/
theorem rank_injective {a b : Symbol} (h : a.rank = b.rank) : a = b := by
  have bound : ∀ c : Char, c.toNat < 0x110000 := by
    intro c
    have hc := c.valid
    simp only [Char.toNat, UInt32.isValidChar, Nat.isValidChar] at *
    omega
  cases a <;> cases b <;> simp only [rank] at h
  · rw [Char.toNat_inj.1 h]
  · next c d =>
    have := bound c
    omega
  · next c d =>
    have := bound d
    omega
  · rw [Char.toNat_inj.1 (Nat.add_left_cancel h)]

instance : Std.TransOrd Symbol := inferInstanceAs (Std.TransCmp (compareOn rank))

instance : Std.LawfulEqOrd Symbol where
  eq_of_compare h := rank_injective (Std.LawfulEqOrd.eq_of_compare h)

@[simp] theorem char_terminal (c : Char) : (terminal c).char = c := rfl

@[simp] theorem char_nonterminal (c : Char) : (nonterminal c).char = c := rfl

/-- A symbol read from a character is named by that character. -/
theorem char_of_ofChar? {c : Char} {s : Symbol} (h : ofChar? c = some s) : s.char = c := by
  unfold ofChar? at h
  split at h
  · cases h; rfl
  · split at h
    · cases h; rfl
    · cases h

end Symbol

/-- A sentential form: the string of symbols that a derivation rewrites. -/
abbrev Form := List Symbol

namespace Form

/-- The symbols of a text; characters that are no symbols are left out. -/
def ofChars (cs : List Char) : Form := cs.filterMap Symbol.ofChar?

/-- The characters of the form, run together. -/
def chars (form : Form) : List Char := form.map Symbol.char

/-- The mark that stands for the empty form in text. -/
def emptyMark : Char := 'ε'

/-- The form as it is shown: its characters, or `ε` when there are none. -/
def shown (form : Form) : List Char :=
  if form.isEmpty then [emptyMark] else form.chars

/-- The shown form as a string. -/
def render (form : Form) : String := String.ofList form.shown

/-- Whether no symbol of the form can be rewritten any more. -/
def isTerminal (form : Form) : Bool := form.all Symbol.isTerminal

/-- A form cut at its leftmost nonterminal. -/
structure Cut where
  /-- The terminals before the nonterminal. -/
  before : Form
  /-- The leftmost nonterminal. -/
  head : Char
  /-- What follows it. -/
  after : Form
deriving DecidableEq, Repr

namespace Cut

/-- Where the nonterminal stands in the form. -/
def position (cut : Cut) : Nat := cut.before.length

/-- The form with the nonterminal replaced. -/
def fill (cut : Cut) (rhs : Form) : Form := cut.before ++ rhs ++ cut.after

end Cut

/-- Cuts the form at its leftmost nonterminal; a terminal form has none. -/
def split? : Form → Option Cut
  | [] => none
  | .nonterminal c :: rest => some ⟨[], c, rest⟩
  | .terminal c :: rest =>
    (split? rest).map fun cut => { cut with before := .terminal c :: cut.before }

/-- A cut loses nothing, and only terminals stand before it. -/
theorem split?_eq_some {form : Form} {cut : Cut} (h : split? form = some cut) :
    form = cut.before ++ .nonterminal cut.head :: cut.after ∧ isTerminal cut.before = true := by
  induction form generalizing cut with
  | nil => simp [split?] at h
  | cons s rest ih =>
    cases s with
    | nonterminal c =>
      simp only [split?, Option.some.injEq] at h
      subst h
      simp [isTerminal]
    | terminal c =>
      simp only [split?, Option.map_eq_some_iff] at h
      obtain ⟨inner, hinner, rfl⟩ := h
      obtain ⟨heq, hterm⟩ := ih hinner
      refine ⟨?_, ?_⟩
      · simp [← heq]
      · simpa [isTerminal, Symbol.isTerminal] using hterm

/-- A form has no cut exactly when it is terminal. -/
theorem split?_eq_none_iff {form : Form} : split? form = none ↔ isTerminal form = true := by
  induction form with
  | nil => simp [split?, isTerminal]
  | cons s rest ih =>
    cases s with
    | nonterminal c => simp [split?, isTerminal, Symbol.isTerminal]
    | terminal c =>
      simp only [split?, Option.map_eq_none_iff, ih]
      simp [isTerminal, Symbol.isTerminal]

end Form

end PhraseStructure
