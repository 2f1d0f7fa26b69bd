import Mathlib.Algebra.BigOperators.Group.Finset.Basic
import PhraseStructure.Proofs.Completeness
import PhraseStructure.Proofs.Linearity

/-!
# Searches that decide

If no nonterminal can vanish, a search needs no step bound: the forms that pass its sieve are at
most one symbol longer than the wanted string. Under the general strategy every symbol adds to the
shortest yield. Under the linear ones yields are not looked at, but a form has at most one
nonterminal, and its terminals are counted. There are finitely many such forms, each is stored
once, and a search with room for all of them comes to an end without having hit a limit.

* `length_le_of_passes`: the forms are short.
* `length_le_sum_pow`: there are at most so many of them.
* `search_exact`: the answer of the search is right either way.
-/

namespace PhraseStructure

/-! ## Linear grammars -/

namespace Form

/-- The number of nonterminals. -/
def nonterminalCount (form : Form) : Nat := form.countP fun s => !s.isTerminal

theorem nonterminalCount_append (a b : Form) :
    nonterminalCount (a ++ b) = nonterminalCount a + nonterminalCount b :=
  List.countP_append

@[simp] theorem nonterminalCount_nonterminal_cons (c : Char) (rest : Form) :
    nonterminalCount (.nonterminal c :: rest) = nonterminalCount rest + 1 :=
  List.countP_cons_of_pos rfl

theorem length_eq (form : Form) : form.length = form.terminalCount + form.nonterminalCount := by
  unfold terminalCount nonterminalCount
  rw [List.length_eq_countP_add_countP Symbol.isTerminal]
  congr 2
  funext s
  cases s <;> rfl

end Form

theorem Shape.nonterminalCount_le {form : Form} (h : Shape.ofForm form ≠ .other) :
    form.nonterminalCount ≤ 1 := by
  rcases shape_cases h with rfl | ⟨a, rfl⟩ | ⟨a, c, rfl, -⟩ | ⟨a, c, rfl, -⟩
  · exact Nat.zero_le 1
  · exact Nat.zero_le 1
  · exact Nat.le_refl 1
  · exact Nat.le_refl 1

namespace Grammar

variable {g : Grammar}

/-- No right-hand side has two nonterminals. -/
def IsLinear (g : Grammar) : Prop := ∀ p ∈ g.productions, p.rhs.nonterminalCount ≤ 1

theorem isLinear_of_classify (h : g.classify = .regular) : g.IsLinear := by
  obtain ⟨side, hside⟩ := linearity?_of_classify h
  intro p hp
  exact Shape.nonterminalCount_le (shape_of_linearity? hside hp).1

theorem IsLinear.nonterminalCount_le (hg : g.IsLinear) {before after : Form}
    (h : g.Rewrites before after) : after.nonterminalCount ≤ before.nonterminalCount := by
  obtain ⟨p, hp, left, right, rfl, rfl⟩ := h
  have hrhs := hg p hp
  simp only [Form.nonterminalCount_append, Form.nonterminalCount_nonterminal_cons]
  omega

theorem WellFormed.declares_of_rewrites (hg : g.WellFormed) {before after : Form}
    (h : g.Rewrites before after) (hbefore : ∀ s ∈ before, g.Declares s) :
    ∀ s ∈ after, g.Declares s := by
  obtain ⟨p, hp, left, right, rfl, rfl⟩ := h
  intro s hs
  rw [List.mem_append, List.mem_append] at hs
  rcases hs with (hs | hs) | hs
  · exact hbefore s (List.mem_append_left _ hs)
  · exact hg.rhs_declared p hp s hs
  · exact hbefore s (List.mem_append_right _ (List.mem_cons_of_mem _ hs))

theorem LeftmostRun.nonterminalCount_le (hg : g.IsLinear) {d : Derivation}
    (hd : g.LeftmostRun d) : d.endForm.nonterminalCount ≤ 1 := by
  refine hd.induction_form (P := fun form => form.nonterminalCount ≤ 1) (Nat.le_refl 1) ?_
  intro before after h hbefore
  exact (hg.nonterminalCount_le h).trans hbefore

theorem LeftmostRun.declares (hg : g.WellFormed) {d : Derivation} (hd : g.LeftmostRun d) :
    ∀ s ∈ d.endForm, g.Declares s := by
  refine hd.induction_form (P := fun form => ∀ s ∈ form, g.Declares s) ?_ ?_
  · intro s hs
    obtain rfl := List.mem_singleton.1 hs
    exact hg.start_mem
  · intro before after h
    exact hg.declares_of_rewrites h

/-! ## Forms that cannot shrink -/

/-- If no nonterminal can vanish, a form becomes no shorter string. -/
theorem length_le_of_derives (hfree : ∀ c, ¬ g.Derives [.nonterminal c] []) {form : Form}
    {w : List Char} (h : g.Derives form (w.map Symbol.terminal)) : form.length ≤ w.length := by
  induction form generalizing w with
  | nil => exact Nat.zero_le _
  | cons s rest ih =>
    obtain ⟨n, hn⟩ := h
    obtain ⟨k, l, u, v, rfl, rfl, hu, hv⟩ := DerivesIn.split_word (a := [s]) hn
    have hrest := ih ⟨l, hv⟩
    have hpos : 0 < u.length := by
      refine List.length_pos_of_ne_nil ?_
      rintro rfl
      cases s with
      | terminal c =>
        obtain ⟨-, hc⟩ := hu.of_isTerminal rfl
        cases hc
      | nonterminal c => exact hfree c ⟨k, hu⟩
    rw [List.length_cons, List.length_append]
    omega

end Grammar

/-- A form whose shortest yield fits is no longer than the string, if that is not too long to be
counted. -/
theorem Sieve.length_le_of_yieldFits {g : Grammar} {p : Sieve} (hp : p.yields = .ofGrammar g)
    (hfree : ∀ c, ¬ g.Derives [.nonterminal c] []) (htarget : p.target.length < maxCount)
    {form : Form} (h : p.yieldFits form = true) : form.length ≤ p.target.length := by
  unfold yieldFits at h
  split at h
  · next n hn =>
    rw [decide_eq_true_eq] at h
    rw [hp] at hn
    obtain ⟨w, hw, rfl⟩ := (ShortestYields.sound_ofGrammar g).ofForm? n hn
    have hle := Grammar.length_le_of_derives hfree hw
    -- The yield is below the largest count, so it has not been saturated.
    unfold saturate at h
    omega
  · cases h

section

variable {g : Grammar} {input : String} {limits : SearchLimits}

/-- **The forms of a search are short** if no nonterminal can vanish. -/
theorem length_le_of_passes (hfree : ∀ c, ¬ g.Derives [.nonterminal c] [])
    (hinput : input.length < maxCount) {d : Derivation} (hd : g.LeftmostRun d)
    (hpasses : (Query.new g g.classify input limits).sieve.passes d.endForm = true) :
    d.endForm.length ≤ input.length + 1 := by
  simp only [Sieve.passes, Bool.and_eq_true, Bool.or_eq_true, decide_eq_true_eq] at hpasses
  obtain ⟨⟨⟨hcount, -⟩, -⟩, hyield⟩ := hpasses
  by_cases hcls : g.classify = .regular
  · have hlinear := hd.nonterminalCount_le (Grammar.isLinear_of_classify hcls)
    have hlen : d.endForm.terminalCount ≤ input.length := hcount.trans_eq String.length_toList
    rw [Form.length_eq]
    omega
  · have hgeneral : (Query.new g g.classify input limits).sieve.strategy = .general :=
      Strategy.forGrammar_eq_general_iff.2 hcls
    rw [hgeneral] at hyield
    have hfits := hyield.resolve_left Bool.false_ne_true
    have hle := Sieve.length_le_of_yieldFits (Query.lawful_new g g.classify input limits) hfree
      (String.length_toList.trans_lt hinput) hfits
    have hlen : d.endForm.length ≤ input.length := hle.trans_eq String.length_toList
    omega

end

/-! ## Counting forms -/

namespace Grammar

/-- The declared symbols. -/
def symbols (g : Grammar) : List Symbol :=
  g.nonterminals.chars.map .nonterminal ++ g.terminals.chars.map .terminal

theorem length_symbols (g : Grammar) :
    g.symbols.length = g.nonterminals.chars.length + g.terminals.chars.length := by
  simp [symbols]

theorem mem_symbols {g : Grammar} {s : Symbol} (h : g.Declares s) : s ∈ g.symbols := by
  cases s with
  | terminal c => exact List.mem_append_right _ (List.mem_map_of_mem h)
  | nonterminal c => exact List.mem_append_left _ (List.mem_map_of_mem h)

end Grammar

/-- All forms of a length over the given symbols. -/
def formsOfLength (symbols : List Symbol) : Nat → List Form
  | 0 => [[]]
  | n + 1 => symbols.flatMap fun s => (formsOfLength symbols n).map (s :: ·)

theorem length_formsOfLength (symbols : List Symbol) (n : Nat) :
    (formsOfLength symbols n).length = symbols.length ^ n := by
  induction n with
  | zero => rfl
  | succ n ih =>
    have hconst : symbols.map (fun s => ((formsOfLength symbols n).map (s :: ·)).length) =
        List.replicate symbols.length (symbols.length ^ n) := by
      simp [ih, List.map_const']
    rw [formsOfLength, List.length_flatMap, hconst, List.sum_replicate_nat, Nat.pow_succ,
      Nat.mul_comm]

theorem mem_formsOfLength {symbols : List Symbol} {form : Form} (h : ∀ s ∈ form, s ∈ symbols) :
    form ∈ formsOfLength symbols form.length := by
  induction form with
  | nil => exact List.mem_singleton_self _
  | cons s rest ih =>
    have hrest := ih fun t ht => h t (List.mem_cons_of_mem s ht)
    rw [List.length_cons, formsOfLength, List.mem_flatMap]
    exact ⟨s, h s List.mem_cons_self, List.mem_map_of_mem hrest⟩

/-- **Different forms of bounded length are no more than there can be.** -/
theorem length_le_sum_pow {symbols : List Symbol} {n : Nat} {forms : List Form}
    (hnodup : forms.Nodup) (hlen : ∀ form ∈ forms, form.length ≤ n)
    (hmem : ∀ form ∈ forms, ∀ s ∈ form, s ∈ symbols) :
    forms.length ≤ ∑ k ∈ Finset.range (n + 1), symbols.length ^ k := by
  have hsub : forms ⊆ (List.range (n + 1)).flatMap (formsOfLength symbols) := by
    intro form hform
    rw [List.mem_flatMap]
    refine ⟨form.length, ?_, mem_formsOfLength (hmem form hform)⟩
    have := hlen form hform
    rw [List.mem_range]
    omega
  calc forms.length
      ≤ ((List.range (n + 1)).flatMap (formsOfLength symbols)).length :=
        (hnodup.subperm hsub).length_le
    _ = ((List.range (n + 1)).map fun k => symbols.length ^ k).sum := by
        rw [List.length_flatMap]
        simp only [length_formsOfLength]
    _ = ∑ k ∈ Finset.range (n + 1), symbols.length ^ k := rfl

/-! ## Searches with enough room -/

section

variable {g : Grammar} {input : String} {limits : SearchLimits} {s : SearchState}

theorem SearchState.Stocked.length_le (hs : Stocked (.new g g.classify input limits) s)
    (hg : g.WellFormed) (hfree : ∀ c, ¬ g.Derives [.nonterminal c] [])
    (hinput : input.length < maxCount) {d : Derivation}
    (hd : d ∈ s.runs (.new g g.classify input limits)) :
    d.endForm.length ≤ input.length + 1 ∧ ∀ x ∈ d.endForm, g.Declares x := by
  have hrun : g.LeftmostRun d := hs.catalogue.run d hd
  refine ⟨?_, hrun.declares hg⟩
  rcases hs.catalogue.passes d hd with hnil | hpasses
  · -- The start form is a single symbol.
    rw [Derivation.endForm, hnil]
    exact Nat.le_add_left 1 _
  · exact length_le_of_passes hfree hinput hrun hpasses

/-- **A search with room for all short forms always finds room.** -/
theorem SearchState.Stocked.stateLimitHit_eq_false
    (hs : Stocked (.new g g.classify input limits) s) (hg : g.WellFormed)
    (hfree : ∀ c, ¬ g.Derives [.nonterminal c] []) (hinput : input.length < maxCount)
    (hroom : ∑ k ∈ Finset.range (input.length + 2), g.symbols.length ^ k ≤ limits.maxStates) :
    s.effort.stateLimitHit = false := by
  by_contra hhit
  rw [Bool.not_eq_false] at hhit
  obtain ⟨hfull, e, he, hpasses, hnew⟩ := hs.full hhit
  -- The form left out and the stored ones are different, and all of them are short.
  have hnodup : (e.endForm :: (s.runs (.new g g.classify input limits)).map
      Derivation.endForm).Nodup := by
    rw [List.nodup_cons]
    refine ⟨?_, hs.catalogue.nodup⟩
    intro hmem
    exact hnew (List.mem_map.1 hmem)
  have hshort : ∀ form ∈ e.endForm :: (s.runs (.new g g.classify input limits)).map
      Derivation.endForm, form.length ≤ input.length + 1 ∧ ∀ x ∈ form, g.Declares x := by
    intro form hform
    rcases List.mem_cons.1 hform with rfl | hform
    · exact ⟨length_le_of_passes hfree hinput he hpasses, he.declares hg⟩
    · obtain ⟨d, hd, rfl⟩ := List.mem_map.1 hform
      exact hs.length_le hg hfree hinput hd
  have hcount := length_le_sum_pow hnodup (fun form hform => (hshort form hform).1)
    fun form hform x hx => Grammar.mem_symbols ((hshort form hform).2 x hx)
  rw [List.length_cons, List.length_map, SearchState.length_runs] at hcount
  have hmax : limits.maxStates ≤ s.arena.size := hfull
  have hfits : s.arena.size + 1 ≤ limits.maxStates := hcount.trans hroom
  omega

end

/-- **A search without vanishing nonterminals decides.** Its step bound is lifted, it stores only
forms that are at most one symbol longer than the string, and if it has room for all of these, it
finds a derivation exactly if there is one. The string is shorter than the largest count, as every
string in memory is; yields beyond that count are not told apart. -/
theorem search_exact {text : String} {maxRules : Nat} {g : Grammar}
    (hread : Source.read maxRules text = .ok g)
    (hfree : ∀ c ∈ g.nonterminals, ¬ g.Derives [.nonterminal c] []) (input : String)
    (hinput : input.length < maxCount) (limits : SearchLimits)
    (hexact : limits.exactIfEpsilonFree = true) :
    (search g g.classify input limits).effort.stepBound = none ∧
    (∀ s, SearchState.Visited (.new g g.classify input limits) s → ∀ node ∈ s.arena.nodes,
      node.form.length ≤ input.length + 1 ∧ ∀ x ∈ node.form, g.Declares x) ∧
    (∑ k ∈ Finset.range (input.length + 2),
        (g.nonterminals.chars.length + g.terminals.chars.length) ^ k ≤ limits.maxStates →
      (search g g.classify input limits).effort.stateLimitHit = false ∧
      ((search g g.classify input limits).belongs = true ↔ g.Generates input.toList)) := by
  have hg := Source.wellFormed_of_read hread
  have hvanish := hg.not_derives_nil hfree
  have hq := Query.lawful_new g g.classify input limits
  obtain ⟨s, hs, heffort⟩ := exists_visited_of_search g g.classify input limits
  have hstocked := hs.stocked hq
  have hbound : (search g g.classify input limits).effort.stepBound = none := by
    rw [heffort, hstocked.stepBound]
    exact stepBound_new_eq_none hexact hvanish
  refine ⟨hbound, ?_, ?_⟩
  · intro s' hs' node hnode
    have hlinked := (hs'.stocked hq).linked
    obtain ⟨d, hd, hform⟩ := hlinked.mem_seen_iff.1 ((hlinked.seen_iff _).2 ⟨node, hnode, rfl⟩)
    rw [← hform]
    exact (hs'.stocked hq).length_le hg hvanish hinput hd
  · intro hroom
    rw [← Grammar.length_symbols] at hroom
    have hhit : (search g g.classify input limits).effort.stateLimitHit = false := by
      rw [heffort]
      exact hstocked.stateLimitHit_eq_false hg hvanish hinput hroom
    refine ⟨hhit, ?_, ?_⟩
    · intro hbelongs
      obtain ⟨d, hd⟩ := Option.isSome_iff_exists.1 hbelongs
      exact generates_of_search hd
    · intro hgen
      by_contra hbelongs
      rw [Bool.not_eq_true] at hbelongs
      refine not_generates_of_not_truncated hbelongs ?_ hgen
      intro htruncated
      obtain ⟨-, hdepth | hstate⟩ := Finding.truncated_iff.1 htruncated
      · have hsome := isSome_stepBound_of_depthLimitHit hbelongs hdepth
        rw [hbound] at hsome
        cases hsome
      · rw [hhit] at hstate
        cases hstate

/-- The grammar `S → T | SS | ab`, `T → S`, in which forms grow and derivations go in circles. -/
def circling : Grammar :=
  { nonterminals := .ofList ['S', 'T']
    terminals := .ofList ['a', 'b']
    start := 'S'
    productions :=
      [⟨'S', [.nonterminal 'T']⟩, ⟨'S', [.nonterminal 'S', .nonterminal 'S']⟩,
        ⟨'S', [.terminal 'a', .terminal 'b']⟩, ⟨'T', [.nonterminal 'S']⟩] }

/-- There are 341 forms of at most four symbols, and with room for these `aba` is rejected for
good. -/
theorem search_exact_circling :
    Source.read 10 "S = S\nP = \x7b\nS -> T | SS | ab\nT -> S\n\x7d" = .ok circling ∧
    (∀ c ∈ circling.nonterminals, ¬ circling.Derives [.nonterminal c] []) ∧
    (search circling circling.classify "aba" ⟨2, none, 341, true⟩).effort.stepBound = none ∧
    (search circling circling.classify "aba" ⟨2, none, 341, true⟩).effort.stateLimitHit = false ∧
    ¬ circling.Generates "aba".toList := by
  have hread : Source.read 10 "S = S\nP = \x7b\nS -> T | SS | ab\nT -> S\n\x7d" =
      .ok circling := by rfl
  have hfree : ∀ c ∈ circling.nonterminals, ¬ circling.Derives [.nonterminal c] [] := by
    intro c _ hc
    have hnullable := ShortestYields.hasNullable_iff.2 ⟨c, hc⟩
    revert hnullable
    decide +kernel
  obtain ⟨hbound, -, hdecides⟩ := search_exact hread hfree "aba" (by decide)
    ⟨2, none, 341, true⟩ rfl
  obtain ⟨hroom, hiff⟩ := hdecides (by decide)
  refine ⟨hread, hfree, hbound, hroom, ?_⟩
  rw [← hiff]
  decide +kernel

end PhraseStructure
