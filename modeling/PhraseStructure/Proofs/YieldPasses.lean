import PhraseStructure.Proofs.Format
import PhraseStructure.Proofs.ShortestYield

/-!
# How many passes a table of shortest yields needs

Passes go on for as long as some production lowers an entry at its turn. Nothing bounds their
number in advance, and an entry may fall many times and by much before it settles. Yet a pass that
changes nothing comes after one pass for each left-hand side at the latest, since a shortest yield
needs no nonterminal inside itself.

* `lowers`, `lowers_iff_pass_ne`: a pass changes the table just if it lowers an entry.
* `Settles`, `exists_settles`: the passes from their beginning to their end.
* `tellsYield_after`: what the entries then are does not depend on the order of the productions.
* `settled_after_leftHandSides`: how many passes change the table.
-/

namespace PhraseStructure

namespace ShortestYields

variable {t : ShortestYields} {order : List Production}

/-! ## Passes that change the table -/

/-- Whether some production lowers an entry when its turn comes in a pass. -/
def lowers (t : ShortestYields) : List Production → Bool
  | [] => false
  | p :: rest => decide (t.relax p ≠ t) || lowers (t.relax p) rest

@[simp] theorem pass_nil (t : ShortestYields) : t.pass [] = t := rfl

@[simp] theorem pass_cons (t : ShortestYields) (p : Production) (rest : List Production) :
    t.pass (p :: rest) = (t.relax p).pass rest := rfl

/-- A lowered entry was higher before. -/
theorem not_below_of_relax_ne {p : Production} (h : t.relax p ≠ t) : ¬ Below t (t.relax p) := by
  intro hbelow
  rcases relax_cases t p with ⟨hsame, -⟩ | ⟨n, -, hinsert, hlt⟩
  · exact h hsame
  · have hentry : n ∈ (t.relax p).shortest? p.lhs := by
      rw [hinsert, shortest?_insert, if_pos rfl]
      rfl
    obtain ⟨m, hm, hmn⟩ := hbelow p.lhs n hentry
    have hnm := hlt m hm
    omega

/-- **A pass changes the table exactly if it lowers an entry:** no later production of the pass
takes back what an earlier one did. -/
theorem lowers_iff_pass_ne : t.lowers order = true ↔ t.pass order ≠ t := by
  induction order generalizing t with
  | nil => simp [lowers]
  | cons p rest ih =>
    by_cases hp : t.relax p = t
    · simp [lowers, hp, ih]
    · have hchanged : (t.relax p).pass rest ≠ t := by
        intro hback
        have hbelow := pass_below (t.relax p) rest
        rw [hback] at hbelow
        exact not_below_of_relax_ne hp hbelow
      simp [lowers, hp, hchanged]

theorem lowers_eq_false_iff : t.lowers order = false ↔ t.pass order = t := by
  rw [← Bool.not_eq_true, lowers_iff_pass_ne, not_not]

theorem pass_eq_of_relax_eq (h : ∀ p ∈ order, t.relax p = t) : t.pass order = t := by
  induction order with
  | nil => rfl
  | cons p rest ih =>
    rw [List.forall_mem_cons] at h
    rw [pass_cons, h.1, ih h.2]

/-! ## The passes from their beginning to their end -/

/-- The passes from `t` on lower entries `n` times and then end, with the table `result`. -/
inductive Settles (order : List Production) : Nat → ShortestYields → ShortestYields → Prop where
  | done {t : ShortestYields} : t.lowers order = false → Settles order 0 t t
  | pass {n : Nat} {t result : ShortestYields} : t.lowers order = true →
      Settles order n (t.pass order) result → Settles order (n + 1) t result

theorem after_add_eq {k : Nat} (h : (after order k).lowers order = false) (m : Nat) :
    after order (k + m) = after order k := by
  induction m with
  | zero => rfl
  | succ m ih =>
    rw [← Nat.add_assoc, after, ih]
    exact lowers_eq_false_iff.1 h

/-- If a pass lowers no entry, the passes end there or earlier, and with the same table. -/
theorem exists_settles {m k : Nat} (h : (after order (k + m)).lowers order = false) :
    ∃ n ≤ m, Settles order n (after order k) (after order (k + m)) := by
  induction m generalizing k with
  | zero => exact ⟨0, Nat.le_refl 0, .done h⟩
  | succ m ih =>
    cases hk : (after order k).lowers order with
    | false =>
      rw [after_add_eq hk]
      exact ⟨0, Nat.zero_le _, .done hk⟩
    | true =>
      have hadd : k + (m + 1) = k + 1 + m := by omega
      rw [hadd] at h ⊢
      obtain ⟨n, hn, hsettles⟩ := ih h
      exact ⟨n + 1, by omega, .pass hk hsettles⟩

/-! ## Any order of the productions -/

section Order

variable {g : Grammar} {k : Nat}

theorem card_lhs_of_perm (h : order.Perm g.productions) :
    (order.map Production.lhs).toFinset.card = g.leftHandSides.length := by
  rw [Grammar.leftHandSides, Source.length_eraseDups,
    List.toFinset_eq_of_perm _ _ (h.map Production.lhs)]

/-- From as many passes as there are left-hand sides on, a pass lowers no entry. -/
theorem lowers_after_eq_false (h : order.Perm g.productions) (hk : g.leftHandSides.length ≤ k) :
    (after order k).lowers order = false := by
  have hcard := (card_lhs_of_perm h).trans_le hk
  rw [lowers_eq_false_iff]
  apply pass_eq_of_relax_eq
  intro p hp
  exact relax_after_eq (g := { g with productions := order }) hcard hp

/-- **The settled entries do not depend on the order of the productions:** they tell what the
grammar derives. -/
theorem tellsYield_after (h : order.Perm g.productions) (hk : g.leftHandSides.length ≤ k)
    (c : Char) : g.TellsYield [.nonterminal c] ((after order k).shortest? c) := by
  have hcard := (card_lhs_of_perm h).trans_le hk
  apply Grammar.tellsYield_of_least
  · intro n hn
    obtain ⟨w, ⟨m, hm⟩, hlen⟩ := sound_after (g := { g with productions := order }) k c n hn
    exact ⟨w, ⟨m, hm.mono h.subset⟩, hlen⟩
  · rintro w ⟨m, hm⟩
    have hw : { g with productions := order }.Derives [.nonterminal c] (w.map Symbol.terminal) :=
      ⟨m, hm.mono h.symm.subset⟩
    exact exists_after_le_of_derives hcard hw

end Order

end ShortestYields

theorem Grammar.TellsYield.unique {g : Grammar} {form : Form} {entry entry' : Option Nat}
    (h : g.TellsYield form entry) (h' : g.TellsYield form entry') : entry = entry' := by
  cases entry with
  | none =>
    have hnone := h.1.1 rfl
    exact (h'.1.2 hnone).symm
  | some n =>
    have hshortest := (h.2 n).1 rfl
    exact ((h'.2 n).2 hshortest).symm

theorem Grammar.length_leftHandSides_le (g : Grammar) :
    g.leftHandSides.length ≤ g.productions.length := by
  rw [← ShortestYields.card_lhs_of_perm (List.Perm.refl _)]
  exact ShortestYields.card_lhs_le_length g

/-- **One pass for each left-hand side settles the table.** Whatever the order of the productions,
after that many passes a further one changes nothing, and only passes before it can lower an entry.
So the passes end, having lowered entries at most as often as there are left-hand sides, which are
no more than the productions. The order changes no settled entry. -/
theorem settled_after_leftHandSides (g : Grammar) {order : List Production}
    (horder : order.Perm g.productions) :
    (ShortestYields.after order g.leftHandSides.length).pass order =
        ShortestYields.after order g.leftHandSides.length ∧
      (∀ n, (ShortestYields.after order n).lowers order = true → n < g.leftHandSides.length) ∧
      (∃ n ≤ g.leftHandSides.length, ShortestYields.Settles order n .empty
        (ShortestYields.after order g.leftHandSides.length)) ∧
      g.leftHandSides.length ≤ g.productions.length ∧
      ∀ c, (ShortestYields.after order g.leftHandSides.length).shortest? c =
        (ShortestYields.ofGrammar g).shortest? c := by
  have hlast := ShortestYields.lowers_after_eq_false horder (Nat.le_refl _)
  refine ⟨ShortestYields.lowers_eq_false_iff.1 hlast, ?_, ?_, g.length_leftHandSides_le, ?_⟩
  · intro n hn
    by_contra hle
    rw [ShortestYields.lowers_after_eq_false horder (Nat.not_lt.1 hle)] at hn
    cases hn
  · have hzero : 0 + g.leftHandSides.length = g.leftHandSides.length := Nat.zero_add _
    rw [← hzero] at hlast
    obtain ⟨n, hn, hsettles⟩ := ShortestYields.exists_settles hlast
    rw [hzero] at hsettles
    exact ⟨n, hn, hsettles⟩
  · intro c
    have htells := ShortestYields.tellsYield_after horder (Nat.le_refl _) c
    have hgrammar := ShortestYields.tellsYield_after (List.Perm.refl _)
      g.length_leftHandSides_le c
    rw [← ShortestYields.ofGrammar_eq] at hgrammar
    exact htells.unique hgrammar

/-- The grammar `S → AAA`, `A → BBB | aaaaaaaaaa`, `B → C | bbb` and `C → ε`, in which every
nonterminal vanishes. -/
def cascading : Grammar :=
  { nonterminals := .ofList ['A', 'B', 'C', 'S']
    terminals := .ofList ['a', 'b']
    start := 'S'
    productions :=
      [⟨'S', .replicate 3 (.nonterminal 'A')⟩, ⟨'A', .replicate 3 (.nonterminal 'B')⟩,
        ⟨'A', .replicate 10 (.terminal 'a')⟩, ⟨'B', [.nonterminal 'C']⟩,
        ⟨'B', .replicate 3 (.terminal 'b')⟩, ⟨'C', []⟩] }

/-- All four passes that the left-hand sides allow are needed, as the entry of `S` falls from 30 to
27 and to 0. In the opposite order a single pass finds the same entries. -/
theorem settled_after_leftHandSides_cascading :
    Source.read 10 "S = S\nP = \x7b\nS -> AAA\nA -> BBB | aaaaaaaaaa\nB -> C | bbb\nC -> ε\n\x7d" =
        .ok cascading ∧
      cascading.leftHandSides.length = 4 ∧
      ((List.range 5).map fun n =>
        (ShortestYields.after cascading.productions n).shortest? 'S') =
          [none, none, some 30, some 27, some 0] ∧
      (ShortestYields.after cascading.productions 3).lowers cascading.productions = true ∧
      (ShortestYields.after cascading.productions 4).pass cascading.productions =
        ShortestYields.after cascading.productions 4 ∧
      (∃ n ≤ 4, ShortestYields.Settles cascading.productions n .empty
        (ShortestYields.after cascading.productions 4)) ∧
      (ShortestYields.after cascading.productions.reverse 1).lowers
        cascading.productions.reverse = false ∧
      ∀ c, (ShortestYields.after cascading.productions.reverse 4).shortest? c =
        (ShortestYields.ofGrammar cascading).shortest? c := by
  have hlength : cascading.leftHandSides.length = 4 := by decide +kernel
  have hgiven := settled_after_leftHandSides cascading (List.Perm.refl _)
  have hreverse := settled_after_leftHandSides cascading (List.reverse_perm _)
  rw [hlength] at hgiven hreverse
  obtain ⟨hpass, -, hsettles, -, -⟩ := hgiven
  obtain ⟨-, -, -, -, hentries⟩ := hreverse
  exact ⟨by rfl, hlength, by decide +kernel, by decide +kernel, hpass, hsettles,
    by decide +kernel, hentries⟩

end PhraseStructure
