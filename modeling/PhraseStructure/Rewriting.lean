import PhraseStructure.Derivation

/-!
# The rewriting relation

What a grammar derives, stated as relations between forms: one step at any place, one step at the
leftmost nonterminal, any number of steps, and the strings derived from the start symbol. These
say what a derivation is without saying how one is found.
-/

namespace PhraseStructure

namespace Grammar

variable (g : Grammar)

/-- One nonterminal, anywhere in the form, is replaced by a right-hand side of it. -/
def Rewrites (before after : Form) : Prop :=
  ∃ p ∈ g.productions, ∃ left right : Form,
    before = left ++ .nonterminal p.lhs :: right ∧ after = left ++ p.rhs ++ right

/-- The leftmost nonterminal of the form is replaced by a right-hand side of it. -/
def RewritesLeftmost (before after : Form) : Prop :=
  ∃ p ∈ g.productions, ∃ left right : Form, left.isTerminal = true ∧
    before = left ++ .nonterminal p.lhs :: right ∧ after = left ++ p.rhs ++ right

/-- The form `before` becomes `after` in exactly `n` steps at any places. -/
inductive DerivesIn : Nat → Form → Form → Prop where
  | refl (form : Form) : DerivesIn 0 form form
  | step {n : Nat} {before between after : Form} :
      g.Rewrites before between → DerivesIn n between after → DerivesIn (n + 1) before after

/-- The form `before` becomes `after` in some number of steps. -/
def Derives (before after : Form) : Prop := ∃ n, g.DerivesIn n before after

/-- The string of terminals `w` is derived from the start symbol. -/
def Generates (w : List Char) : Prop := g.Derives g.startForm (w.map Symbol.terminal)

end Grammar

end PhraseStructure
