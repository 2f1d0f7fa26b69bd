import Mathlib.Data.Finset.Card
import Mathlib.Data.Prod.Lex
import Mathlib.Order.WellFounded
import PhraseStructure.Proofs.Rewriting
import PhraseStructure.Proofs.WellFormed
import PhraseStructure.Yield

/-!
# The table of shortest yields

The table of a grammar holds, for every nonterminal, the length of the shortest terminal string
that it derives, saturated.

* `Sound`: an entry is the length of a derived string. Every pass keeps this.
* `exists_shortest?_le`: after as many passes as there are left-hand sides, no derived string is
  shorter than the entry. A pass settles every nonterminal whose cheapest string is made of strings
  of settled nonterminals, and a cheapest string uses only strictly cheaper ones.
* `relax_after_eq`: from then on no production lowers an entry, so the passes end.
* `shortestYields_exact`: the table says what the grammar derives.
-/

namespace PhraseStructure

theorem saturate_mono {n m : Nat} (h : n ≤ m) : saturate n ≤ saturate m := by
  unfold saturate
  omega

theorem saturate_add_le {n m n' m' : Nat} (hn : n ≤ saturate n') (hm : m ≤ saturate m') :
    saturate (n + m) ≤ saturate (n' + m') := by
  unfold saturate at *
  omega

namespace ShortestYields

/-! ## Entries only fall -/

/-- A table knows at least what another knows, and no larger yields. -/
def Below (t' t : ShortestYields) : Prop :=
  ∀ c, ∀ n ∈ t.shortest? c, ∃ m ∈ t'.shortest? c, m ≤ n

theorem Below.refl (t : ShortestYields) : Below t t := fun _ n hn => ⟨n, hn, Nat.le_refl n⟩

theorem Below.trans {t₁ t₂ t₃ : ShortestYields} (h : Below t₁ t₂) (h' : Below t₂ t₃) :
    Below t₁ t₃ := by
  intro c n hn
  obtain ⟨m, hm, hmn⟩ := h' c n hn
  obtain ⟨l, hl, hlm⟩ := h c m hm
  exact ⟨l, hl, by omega⟩

theorem Below.ofForm? {t' t : ShortestYields} (h : Below t' t) {form : Form} :
    ∀ n ∈ t.ofForm? form, ∃ m ∈ t'.ofForm? form, m ≤ n := by
  induction form with
  | nil => exact fun n hn => ⟨n, hn, Nat.le_refl n⟩
  | cons s rest ih =>
    intro n hn
    simp only [ShortestYields.ofForm?] at hn ⊢
    split at hn
    · next k l hk hl =>
      obtain rfl := Option.some.inj hn
      obtain ⟨l', hl', hle⟩ := ih l hl
      have hs : ∃ k' ∈ t'.ofSymbol? s, k' ≤ k := by
        cases s with
        | terminal c => exact ⟨k, hk, Nat.le_refl k⟩
        | nonterminal c => exact h c k hk
      obtain ⟨k', hk', hkle⟩ := hs
      rw [Option.mem_def.1 hk', Option.mem_def.1 hl']
      exact ⟨_, rfl, saturate_mono (by omega)⟩
    · cases hn

/-- What relaxing a production does: nothing, or it lowers one entry. -/
theorem relax_cases (t : ShortestYields) (p : Production) :
    (t.relax p = t ∧ ∀ n ∈ t.ofForm? p.rhs, ∃ m ∈ t.shortest? p.lhs, m ≤ n) ∨
      ∃ n ∈ t.ofForm? p.rhs, t.relax p = t.insert p.lhs n ∧ ∀ m ∈ t.shortest? p.lhs, n < m := by
  unfold relax
  split
  · next n hn =>
    split
    · next himp =>
      refine .inr ⟨n, hn, rfl, ?_⟩
      intro m hm
      rw [Option.mem_def.1 hm] at himp
      simpa [improves] using himp
    · next himp =>
      refine .inl ⟨rfl, ?_⟩
      intro n' hn'
      obtain rfl := Option.mem_unique hn hn'
      cases hm : t.shortest? p.lhs with
      | none => simp [hm, improves] at himp
      | some m =>
        rw [hm] at himp
        exact ⟨m, rfl, by simpa [improves] using himp⟩
  · next hn =>
    refine .inl ⟨rfl, ?_⟩
    intro n hn'
    rw [hn] at hn'
    cases hn'

theorem relax_below (t : ShortestYields) (p : Production) : Below (t.relax p) t := by
  rcases relax_cases t p with ⟨h, -⟩ | ⟨n, -, h, hlt⟩
  · rw [h]
    exact .refl t
  · intro c m hm
    rw [h, shortest?_insert]
    by_cases hc : c = p.lhs
    · subst hc
      exact ⟨n, by simp, Nat.le_of_lt (hlt m hm)⟩
    · rw [if_neg hc]
      exact ⟨m, hm, Nat.le_refl m⟩

/-- A relaxed production's left-hand side yields no more than its right-hand side did. -/
theorem relax_reaches (t : ShortestYields) (p : Production) :
    ∀ n ∈ t.ofForm? p.rhs, ∃ m ∈ (t.relax p).shortest? p.lhs, m ≤ n := by
  intro n hn
  rcases relax_cases t p with ⟨h, hle⟩ | ⟨n', hn', h, -⟩
  · rw [h]
    exact hle n hn
  · obtain rfl := Option.mem_unique hn hn'
    rw [h, shortest?_insert, if_pos rfl]
    exact ⟨n, rfl, Nat.le_refl n⟩

theorem pass_below (t : ShortestYields) (productions : List Production) :
    Below (t.pass productions) t := by
  induction productions generalizing t with
  | nil => exact .refl t
  | cons p rest ih => exact (ih (t.relax p)).trans (relax_below t p)

theorem pass_reaches (t : ShortestYields) {productions : List Production} {p : Production}
    (hp : p ∈ productions) :
    ∀ n ∈ t.ofForm? p.rhs, ∃ m ∈ (t.pass productions).shortest? p.lhs, m ≤ n := by
  intro n hn
  obtain ⟨before, after, rfl⟩ := List.append_of_mem hp
  have hpass : t.pass (before ++ p :: after) = ((t.pass before).relax p).pass after := by
    simp [pass]
  -- At its turn the production sees entries that have already fallen, and its own falls no less.
  obtain ⟨m, hm, hmn⟩ := (pass_below t before).ofForm? n hn
  obtain ⟨k, hk, hkm⟩ := relax_reaches (t.pass before) p m hm
  obtain ⟨l, hl, hlk⟩ := pass_below ((t.pass before).relax p) after _ k hk
  rw [hpass]
  exact ⟨l, hl, by omega⟩

/-- The table after a number of passes from the empty one. -/
def after (productions : List Production) : Nat → ShortestYields
  | 0 => empty
  | k + 1 => (after productions k).pass productions

/-- Stopping at an unchanged table does not change the result. -/
theorem settle_after (productions : List Production) (n k : Nat) :
    settle productions n (after productions k) = after productions (k + n) := by
  induction n generalizing k with
  | zero => rfl
  | succ n ih =>
    simp only [settle]
    split
    · next h =>
      -- A pass that changes nothing is followed only by such passes.
      have hstable : ∀ m, after productions (k + m) = after productions k := by
        intro m
        induction m with
        | zero => rfl
        | succ m ihm =>
          rw [← Nat.add_assoc, after, ihm]
          exact h
      exact (hstable (n + 1)).symm
    · rw [show (after productions k).pass productions = after productions (k + 1) from rfl,
        ih (k + 1), Nat.add_right_comm, Nat.add_assoc]

theorem ofGrammar_eq (g : Grammar) :
    ofGrammar g = after g.productions g.productions.length := by
  have := settle_after g.productions g.productions.length 0
  rwa [Nat.zero_add] at this

/-! ## Entries are lengths of derived strings -/

/-- Every entry is the saturated length of a string that the nonterminal derives. -/
def Sound (g : Grammar) (t : ShortestYields) : Prop :=
  ∀ c, ∀ n ∈ t.shortest? c,
    ∃ w : List Char, g.Derives [.nonterminal c] (w.map Symbol.terminal) ∧ n = saturate w.length

variable {g : Grammar} {t : ShortestYields}

theorem Sound.ofForm? (h : t.Sound g) {form : Form} :
    ∀ n ∈ t.ofForm? form,
      ∃ w : List Char, g.Derives form (w.map Symbol.terminal) ∧ n = saturate w.length := by
  induction form with
  | nil =>
    intro n hn
    exact ⟨[], ⟨0, .refl _⟩, (Option.some.inj hn).symm⟩
  | cons s rest ih =>
    intro n hn
    simp only [ShortestYields.ofForm?] at hn
    split at hn
    · next k l hk hl =>
      obtain rfl := Option.some.inj hn
      obtain ⟨v, ⟨i, hi⟩, rfl⟩ := ih l hl
      have hs : ∃ u : List Char, g.Derives [s] (u.map Symbol.terminal) ∧
          k = saturate u.length := by
        cases s with
        | terminal c => exact ⟨[c], ⟨0, .refl _⟩, (Option.some.inj hk).symm⟩
        | nonterminal c => exact h c k hk
      obtain ⟨u, ⟨j, hj⟩, rfl⟩ := hs
      refine ⟨u ++ v, ⟨j + i, ?_⟩, ?_⟩
      · rw [List.map_append]
        exact hj.append hi
      · rw [List.length_append, saturate_add_saturate, Nat.add_comm, saturate_add_saturate,
          Nat.add_comm]
    · cases hn

theorem Sound.relax (h : t.Sound g) {p : Production} (hp : p ∈ g.productions) :
    (t.relax p).Sound g := by
  rcases relax_cases t p with ⟨heq, -⟩ | ⟨n, hn, heq, -⟩
  · rw [heq]
    exact h
  · intro c m hm
    rw [heq, shortest?_insert] at hm
    by_cases hc : c = p.lhs
    · subst hc
      rw [if_pos rfl] at hm
      obtain rfl := Option.some.inj hm
      obtain ⟨w, ⟨k, hk⟩, rfl⟩ := h.ofForm? n hn
      exact ⟨w, ⟨k + 1, .step (Grammar.rewrites_singleton.2 ⟨p, hp, rfl, rfl⟩) hk⟩, rfl⟩
    · rw [if_neg hc] at hm
      exact h c m hm

theorem Sound.pass (h : t.Sound g) {productions : List Production}
    (hsub : ∀ p ∈ productions, p ∈ g.productions) : (t.pass productions).Sound g := by
  induction productions generalizing t with
  | nil => exact h
  | cons p rest ih =>
    exact ih (h.relax (hsub p List.mem_cons_self)) fun q hq => hsub q (List.mem_cons_of_mem p hq)

theorem sound_after (k : Nat) : (after g.productions k).Sound g := by
  induction k with
  | zero =>
    intro c n hn
    cases hn
  | succ k ih => exact ih.pass fun p hp => hp

/-- **The entries of a grammar's table are lengths of derived strings.** -/
theorem sound_ofGrammar (g : Grammar) : (ofGrammar g).Sound g := by
  rw [ofGrammar_eq]
  exact sound_after _

end ShortestYields

/-! ## No derived string is shorter than its entry -/

namespace Grammar

/-- What it costs a nonterminal to become a terminal string: the length of the string, and then
the number of steps. -/
def costs (g : Grammar) (c : Char) : Set (ℕ ×ₗ ℕ) :=
  { x | ∃ w : List Char, w.length = (ofLex x).1 ∧
    g.DerivesIn (ofLex x).2 [.nonterminal c] (w.map Symbol.terminal) }

open Classical in
/-- The left-hand sides that can become a string at a lower cost. -/
noncomputable def cheaper (g : Grammar) (x : ℕ ×ₗ ℕ) : Finset Char :=
  (g.productions.map Production.lhs).toFinset.filter fun b => ∃ y ∈ g.costs b, y < x

variable {g : Grammar}

theorem mem_lhs_of_costs {c : Char} {x : ℕ ×ₗ ℕ} (h : x ∈ g.costs c) :
    c ∈ (g.productions.map Production.lhs).toFinset := by
  obtain ⟨w, -, hw⟩ := h
  obtain ⟨p, hp, rfl, -⟩ := hw.nonterminal_cases (Form.isTerminal_map_terminal w)
  rw [List.mem_toFinset]
  exact List.mem_map_of_mem hp

theorem exists_least_cost {c : Char} {x : ℕ ×ₗ ℕ} (h : x ∈ g.costs c) :
    ∃ y ∈ g.costs c, ∀ z ∈ g.costs c, y ≤ z := by
  obtain ⟨y, hy, hmin⟩ := WellFounded.has_min (wellFounded_lt (α := ℕ ×ₗ ℕ)) (g.costs c) ⟨x, h⟩
  exact ⟨y, hy, fun z hz => not_lt.1 (hmin z hz)⟩

theorem not_mem_cheaper {c : Char} {x : ℕ ×ₗ ℕ} (hleast : ∀ y ∈ g.costs c, x ≤ y) :
    c ∉ g.cheaper x := by
  classical
  intro hc
  obtain ⟨-, y, hy, hyx⟩ := Finset.mem_filter.1 hc
  exact absurd hyx (not_lt.2 (hleast y hy))

/-- Fewer nonterminals are cheaper than a cheaper nonterminal. -/
theorem card_cheaper_lt {b : Char} {x y : ℕ ×ₗ ℕ} (hy : y ∈ g.costs b)
    (hleast : ∀ z ∈ g.costs b, y ≤ z) (hyx : y < x) :
    (g.cheaper y).card < (g.cheaper x).card := by
  classical
  apply Finset.card_lt_card
  rw [Finset.ssubset_iff_of_subset]
  · exact ⟨b, Finset.mem_filter.2 ⟨mem_lhs_of_costs hy, y, hy, hyx⟩, not_mem_cheaper hleast⟩
  · intro d hd
    obtain ⟨hd, z, hz, hzy⟩ := Finset.mem_filter.1 hd
    exact Finset.mem_filter.2 ⟨hd, z, hz, hzy.trans hyx⟩

end Grammar

namespace ShortestYields

variable {g : Grammar} {t : ShortestYields}

/-- The yield of a form is at most the length of a derived string, if this holds of the
nonterminals that the string is made of. -/
theorem exists_ofForm?_le {n : Nat} {form : Form} {w : List Char}
    (h : g.DerivesIn n form (w.map Symbol.terminal))
    (hparts : ∀ (b : Char) (v : List Char) (m : Nat),
      g.DerivesIn m [.nonterminal b] (v.map Symbol.terminal) → v.length ≤ w.length → m ≤ n →
        ∃ k ∈ t.shortest? b, k ≤ saturate v.length) :
    ∃ k ∈ t.ofForm? form, k ≤ saturate w.length := by
  induction form generalizing n w with
  | nil => exact ⟨0, rfl, Nat.zero_le _⟩
  | cons s rest ih =>
    obtain ⟨n₁, n₂, u, v, rfl, rfl, hu, hv⟩ := Grammar.DerivesIn.split_word (a := [s]) h
    rw [List.length_append] at hparts ⊢
    obtain ⟨l, hl, hle⟩ := ih hv fun b x m hx hlen hm =>
      hparts b x m hx (by omega) (by omega)
    have hs : ∃ k ∈ t.ofSymbol? s, k ≤ saturate u.length := by
      cases s with
      | nonterminal c => exact hparts c u n₁ hu (by omega) (by omega)
      | terminal c =>
        obtain ⟨-, hmap⟩ := hu.of_isTerminal (by simp)
        have hlen : u.length = 1 := by simpa using congrArg List.length hmap
        exact ⟨1, rfl, by rw [hlen]; decide⟩
    obtain ⟨k, hk, hkle⟩ := hs
    simp only [ofForm?, Option.mem_def.1 hk, Option.mem_def.1 hl]
    exact ⟨_, rfl, saturate_add_le hkle hle⟩

/-- **A nonterminal is settled after one pass more than there are cheaper ones.** -/
theorem exists_after_le {k : Nat} {c : Char} {x : ℕ ×ₗ ℕ} (hx : x ∈ g.costs c)
    (hcard : (g.cheaper x).card < k) :
    ∃ n ∈ (after g.productions k).shortest? c, n ≤ saturate (ofLex x).1 := by
  -- Induction on the passes: what the string is made of has been settled one pass earlier.
  induction k generalizing c x with
  | zero => omega
  | succ k ih =>
    obtain ⟨w, hlen, hw⟩ := hx
    obtain ⟨p, hp, rfl, m, hm, hrhs⟩ := hw.nonterminal_cases (Form.isTerminal_map_terminal w)
    have hform : ∃ n ∈ (after g.productions k).ofForm? p.rhs, n ≤ saturate w.length := by
      refine exists_ofForm?_le hrhs ?_
      intro b v i hv hvlen hi
      -- The parts are cheaper than the whole: no longer, and made in fewer steps.
      have hb : toLex (v.length, i) ∈ g.costs b := ⟨v, rfl, hv⟩
      have hlt : toLex (v.length, i) < x := by
        rw [← toLex_ofLex x, Prod.Lex.toLex_lt_toLex']
        exact ⟨by omega, fun _ => by omega⟩
      obtain ⟨y, hy, hleast⟩ := Grammar.exists_least_cost hb
      have hyv : y ≤ toLex (v.length, i) := hleast _ hb
      have hfewer := Grammar.card_cheaper_lt hy hleast (lt_of_le_of_lt hyv hlt)
      obtain ⟨n, hn, hle⟩ := ih hy (by omega)
      rw [← toLex_ofLex y, Prod.Lex.toLex_le_toLex'] at hyv
      exact ⟨n, hn, hle.trans (saturate_mono hyv.1)⟩
    obtain ⟨n, hn, hle⟩ := hform
    obtain ⟨n', hn', hle'⟩ := pass_reaches (after g.productions k) hp n hn
    exact ⟨n', hn', by rw [← hlen]; omega⟩

/-- As many passes as there are left-hand sides settle all nonterminals. -/
theorem exists_after_le_of_derives {k : Nat}
    (hk : (g.productions.map Production.lhs).toFinset.card ≤ k) {c : Char} {w : List Char}
    (h : g.Derives [.nonterminal c] (w.map Symbol.terminal)) :
    ∃ n ∈ (after g.productions k).shortest? c, n ≤ saturate w.length := by
  classical
  obtain ⟨m, hm⟩ := h
  have hw : toLex (w.length, m) ∈ g.costs c := ⟨w, rfl, hm⟩
  obtain ⟨x, hx, hleast⟩ := Grammar.exists_least_cost hw
  have hlt : (g.cheaper x).card < (g.productions.map Production.lhs).toFinset.card := by
    apply Finset.card_lt_card
    have hsub : g.cheaper x ⊆ (g.productions.map Production.lhs).toFinset :=
      Finset.filter_subset _ _
    rw [Finset.ssubset_iff_of_subset hsub]
    exact ⟨c, Grammar.mem_lhs_of_costs hx, Grammar.not_mem_cheaper hleast⟩
  obtain ⟨n, hn, hle⟩ := exists_after_le hx (by omega : _ < k)
  have hxw := hleast _ hw
  rw [← toLex_ofLex x, Prod.Lex.toLex_le_toLex'] at hxw
  exact ⟨n, hn, hle.trans (saturate_mono hxw.1)⟩

/-- Then no production lowers an entry any more, and the passes end. -/
theorem relax_after_eq {k : Nat}
    (hk : (g.productions.map Production.lhs).toFinset.card ≤ k) {p : Production}
    (hp : p ∈ g.productions) : (after g.productions k).relax p = after g.productions k := by
  rcases relax_cases (after g.productions k) p with ⟨heq, -⟩ | ⟨n, hn, -, hlt⟩
  · exact heq
  · -- A lower entry would be the length of a string that is shorter than the settled one.
    obtain ⟨w, ⟨m, hm⟩, rfl⟩ := (sound_after k).ofForm? n hn
    have hlhs : g.Derives [.nonterminal p.lhs] (w.map Symbol.terminal) :=
      ⟨m + 1, .step (Grammar.rewrites_singleton.2 ⟨p, hp, rfl, rfl⟩) hm⟩
    obtain ⟨n', hn', hle⟩ := exists_after_le_of_derives hk hlhs
    have hcontra := hlt n' hn'
    omega

theorem card_lhs_le_length (g : Grammar) :
    (g.productions.map Production.lhs).toFinset.card ≤ g.productions.length :=
  calc (g.productions.map Production.lhs).toFinset.card
      ≤ (g.productions.map Production.lhs).length := List.toFinset_card_le _
    _ = g.productions.length := List.length_map _

/-- **No derived string is shorter than the entry in the grammar's table.** -/
theorem exists_shortest?_le {c : Char} {w : List Char}
    (h : g.Derives [.nonterminal c] (w.map Symbol.terminal)) :
    ∃ n ∈ (ofGrammar g).shortest? c, n ≤ saturate w.length := by
  rw [ofGrammar_eq]
  exact exists_after_le_of_derives (card_lhs_le_length g) h

/-- Nor is a string that a form derives shorter than the yield of the form. -/
theorem exists_ofForm?_le_of_derives {form : Form} {w : List Char}
    (h : g.Derives form (w.map Symbol.terminal)) :
    ∃ n ∈ (ofGrammar g).ofForm? form, n ≤ saturate w.length := by
  obtain ⟨n, hn⟩ := h
  exact exists_ofForm?_le hn fun b v m hv _ _ => exists_shortest?_le ⟨m, hv⟩

/-! ## Vanishing nonterminals -/

/-- The entries that a table lists are the ones that it looks up. -/
def Keyed (t : ShortestYields) : Prop := ∀ entry ∈ t.entries, t.shortest? entry.1 = some entry.2

theorem Keyed.relax (h : t.Keyed) (p : Production) : (t.relax p).Keyed := by
  rcases relax_cases t p with ⟨heq, -⟩ | ⟨n, -, heq, -⟩
  · rw [heq]
    exact h
  · rw [heq]
    intro entry hentry
    rw [shortest?_insert]
    simp only [insert, List.mem_cons, List.mem_filter, bne_iff_ne] at hentry
    rcases hentry with rfl | ⟨hmem, hne⟩
    · rw [if_pos rfl]
    · rw [if_neg hne]
      exact h entry hmem

theorem keyed_after (productions : List Production) (k : Nat) : (after productions k).Keyed := by
  have hpass : ∀ (l : List Production) (t : ShortestYields), t.Keyed → (t.pass l).Keyed := by
    intro l
    induction l with
    | nil => exact fun t h => h
    | cons p rest ih => exact fun t h => ih _ (h.relax p)
  induction k with
  | zero =>
    intro entry hentry
    cases hentry
  | succ k ih => exact hpass productions _ ih

/-- **The table has a nullable nonterminal exactly when some nonterminal derives the empty
string.** -/
theorem hasNullable_iff :
    (ofGrammar g).hasNullable = true ↔ ∃ c, g.Derives [.nonterminal c] [] := by
  constructor
  · intro h
    simp only [hasNullable, List.any_eq_true, beq_iff_eq] at h
    obtain ⟨⟨c, n⟩, hentry, rfl⟩ := h
    have hkeyed : (ofGrammar g).Keyed := by
      rw [ofGrammar_eq]
      exact keyed_after _ _
    obtain ⟨w, hw, hlen⟩ := sound_ofGrammar g c 0 (hkeyed _ hentry)
    have hnil : w = [] := by
      rw [← List.length_eq_zero_iff]
      unfold saturate maxCount at hlen
      omega
    subst hnil
    exact ⟨c, hw⟩
  · rintro ⟨c, hc⟩
    obtain ⟨n, hn, hle⟩ := exists_shortest?_le (w := []) hc
    obtain rfl : n = 0 := by simpa [saturate] using hle
    obtain ⟨before, later, hentries, -⟩ := List.lookup_eq_some_iff.1 hn
    simp only [hasNullable, List.any_eq_true, beq_iff_eq]
    exact ⟨(c, 0), by rw [hentries]; simp, rfl⟩

end ShortestYields

/-! ## The exact table -/

namespace Grammar

/-- The string is derived from the form, and no string derived from it is shorter. -/
def DerivesShortest (g : Grammar) (form : Form) (w : List Char) : Prop :=
  g.Derives form (w.map Symbol.terminal) ∧
    ∀ v : List Char, g.Derives form (v.map Symbol.terminal) → w.length ≤ v.length

/-- The entry tells how short a string the form derives: there is none if the form derives no
string, and else it is the length of a shortest one, or the largest count if that is less. -/
def TellsYield (g : Grammar) (form : Form) (entry : Option Nat) : Prop :=
  (entry = none ↔ ∀ w : List Char, ¬ g.Derives form (w.map Symbol.terminal)) ∧
    ∀ n, entry = some n ↔ ∃ w, g.DerivesShortest form w ∧ n = min maxCount w.length

variable {g : Grammar} {form : Form}

theorem exists_derivesShortest {w : List Char} (h : g.Derives form (w.map Symbol.terminal)) :
    ∃ v, g.DerivesShortest form v := by
  obtain ⟨v, hv, hleast⟩ := WellFounded.has_min (measure List.length).wf
    { v : List Char | g.Derives form (v.map Symbol.terminal) } ⟨w, h⟩
  exact ⟨v, hv, fun u hu => Nat.not_lt.1 (hleast u hu)⟩

/-- An entry tells the yield if it is the length of a derived string and none of these is
shorter. -/
theorem tellsYield_of_least {entry : Option Nat}
    (hsound : ∀ n ∈ entry, ∃ w : List Char, g.Derives form (w.map Symbol.terminal) ∧
      n = saturate w.length)
    (hleast : ∀ w : List Char, g.Derives form (w.map Symbol.terminal) →
      ∃ n ∈ entry, n ≤ saturate w.length) : g.TellsYield form entry := by
  refine ⟨⟨?_, ?_⟩, fun n => ⟨?_, ?_⟩⟩
  · rintro rfl w hw
    obtain ⟨n, hn, -⟩ := hleast w hw
    cases hn
  · intro hnone
    cases hentry : entry with
    | none => rfl
    | some n =>
      obtain ⟨w, hw, -⟩ := hsound n hentry
      exact absurd hw (hnone w)
  · intro hn
    obtain ⟨w, hw, hlen⟩ := hsound n hn
    obtain ⟨v, hv⟩ := exists_derivesShortest hw
    obtain ⟨m, hm, hle⟩ := hleast v hv.1
    obtain rfl := Option.mem_unique hn hm
    -- Both strings have the entry for their saturated length, though `w` may be the longer one.
    have hshort := hv.2 w hw
    refine ⟨v, hv, ?_⟩
    unfold saturate at hlen hle
    omega
  · rintro ⟨w, hw, rfl⟩
    obtain ⟨n, hn, hle⟩ := hleast w hw.1
    obtain ⟨v, hv, hlen⟩ := hsound n hn
    have hshort := hw.2 v hv
    rw [Option.mem_def.1 hn]
    unfold saturate at hlen hle
    congr 1
    omega

end Grammar

/-- **The table of a grammar is exact.** The entry of a nonterminal tells how short a string it
derives, and so does the total of a form; there is a nullable entry exactly if some nonterminal
vanishes; and the passes over the productions come to an end: after at most as many as there are
productions, none of these lowers an entry. -/
theorem shortestYields_exact {text : String} {maxRules : Nat} {g : Grammar}
    (hread : Source.read maxRules text = .ok g) :
    (∀ c, g.TellsYield [.nonterminal c] ((ShortestYields.ofGrammar g).shortest? c)) ∧
    (∀ form, g.TellsYield form ((ShortestYields.ofGrammar g).ofForm? form)) ∧
    ((ShortestYields.ofGrammar g).hasNullable = true ↔
      ∃ c ∈ g.nonterminals, g.Derives [.nonterminal c] []) ∧
    ∃ k ≤ g.productions.length,
      ShortestYields.ofGrammar g = ShortestYields.after g.productions k ∧
      ∀ p ∈ g.productions,
        (ShortestYields.after g.productions k).relax p = ShortestYields.after g.productions k := by
  have hsound := ShortestYields.sound_ofGrammar g
  refine ⟨?_, ?_, ?_, ?_⟩
  · intro c
    exact Grammar.tellsYield_of_least (hsound c) fun w hw => ShortestYields.exists_shortest?_le hw
  · intro form
    exact Grammar.tellsYield_of_least hsound.ofForm? fun w hw =>
      ShortestYields.exists_ofForm?_le_of_derives hw
  · rw [ShortestYields.hasNullable_iff]
    constructor
    · rintro ⟨c, n, hn⟩
      -- What vanishes has a production, so it is declared.
      obtain ⟨p, hp, rfl, -⟩ := hn.nonterminal_cases rfl
      exact ⟨p.lhs, (Source.wellFormed_of_read hread).lhs_mem p hp, n, hn⟩
    · rintro ⟨c, -, hc⟩
      exact ⟨c, hc⟩
  · refine ⟨g.productions.length, Nat.le_refl _, ShortestYields.ofGrammar_eq g, ?_⟩
    intro p hp
    exact ShortestYields.relax_after_eq (ShortestYields.card_lhs_le_length g) hp

/-- The grammar `S → aSb | Ac`, `A → BB | C`, `B → ε | b` and `C → Cb`, in which `A` and `B` vanish
and `C` becomes no string. -/
def vanishing : Grammar :=
  { nonterminals := .ofList ['A', 'B', 'C', 'S']
    terminals := .ofList ['a', 'b', 'c']
    start := 'S'
    productions :=
      [⟨'S', [.terminal 'a', .nonterminal 'S', .terminal 'b']⟩,
        ⟨'S', [.nonterminal 'A', .terminal 'c']⟩, ⟨'A', [.nonterminal 'B', .nonterminal 'B']⟩,
        ⟨'A', [.nonterminal 'C']⟩, ⟨'B', []⟩, ⟨'B', [.terminal 'b']⟩,
        ⟨'C', [.nonterminal 'C', .terminal 'b']⟩] }

/-- The entry of `S` is found in the third pass, from the one of `A`, which is found in the second
one. -/
theorem shortestYields_exact_vanishing :
    Source.read 10 "S = S\nP = \x7b\nS -> aSb | Ac\nA -> BB | C\nB -> ε | b\nC -> Cb\n\x7d" =
        .ok vanishing ∧
      (∀ w : List Char, ¬ vanishing.Derives [.nonterminal 'C'] (w.map Symbol.terminal)) ∧
      (∃ w, vanishing.DerivesShortest [.nonterminal 'S'] w ∧ w.length = 1) ∧
      (∃ w, vanishing.DerivesShortest
        [.nonterminal 'S', .terminal 'a', .nonterminal 'S'] w ∧ w.length = 3) ∧
      ∃ c ∈ vanishing.nonterminals, vanishing.Derives [.nonterminal c] [] := by
  have hread : Source.read 10
      "S = S\nP = \x7b\nS -> aSb | Ac\nA -> BB | C\nB -> ε | b\nC -> Cb\n\x7d" =
        .ok vanishing := by rfl
  obtain ⟨hentries, hforms, hnullable, -⟩ := shortestYields_exact hread
  refine ⟨hread, (hentries 'C').1.1 (by decide +kernel), ?_, ?_, hnullable.1 (by decide +kernel)⟩
  · obtain ⟨w, hw, hlen⟩ := ((hentries 'S').2 1).1 (by decide +kernel)
    unfold maxCount at hlen
    exact ⟨w, hw, by omega⟩
  · obtain ⟨w, hw, hlen⟩ :=
      ((hforms [.nonterminal 'S', .terminal 'a', .nonterminal 'S']).2 3).1 (by decide +kernel)
    unfold maxCount at hlen
    exact ⟨w, hw, by omega⟩

end PhraseStructure
