import PhraseStructure.Proofs.BlockReports
import PhraseStructure.Proofs.Format

/-!
# The order of the sections

An accepted text is made of sections with blank lines between them: the lines of its declarations,
and the lines of its block from the opening one down to the closing one. Each section comes at most
once, so what the sections declare, and the rows of the block, do not depend on their order. And
wherever the block stands among the declarations, the lines are arranged as they have to be.

* `Cut.declared_eq`, `Cut.rowsOf_eq`: what lines declare, section by section.
* `Cut.arranged`, `Cut.length_blocks_le`: lines are arranged if at most one section is a block.
* `read_of_rearranged`: a text may be given with its sections in any order.
-/

namespace PhraseStructure

/-! ## Writing lines -/

namespace Text

theorem notMem_of_mem_lines {text line : List Char} (h : line ∈ lines text) : '\n' ∉ line := by
  fun_induction lines text generalizing line with
  | case1 => cases h
  | case2 rest ih =>
    rcases List.mem_cons.1 h with rfl | h
    · exact List.not_mem_nil
    · exact ih h
  | case3 rest ih =>
    rcases List.mem_cons.1 h with rfl | h
    · exact List.not_mem_nil
    · exact ih h
  | case4 c rest hfeed _ hlines ih =>
    rw [List.mem_singleton.1 h, List.mem_singleton]
    exact fun heq => hfeed heq.symm
  | case5 c rest hfeed _ first later hlines ih =>
    rw [hlines] at ih
    rcases List.mem_cons.1 h with rfl | h
    · rw [List.mem_cons, not_or]
      exact ⟨fun heq => hfeed heq.symm, ih List.mem_cons_self⟩
    · exact ih (List.mem_cons_of_mem _ h)

/-- **Every list of lines can be written down**, with a carriage return in each line end, so that
one at the end of a line is not taken for a part of it. -/
theorem lines_written {ls : List (List Char)} (h : ∀ line ∈ ls, '\n' ∉ line) :
    lines (ls.flatMap fun line => line ++ ['\r', '\n']) = ls := by
  have hline : ∀ (line rest : List Char), '\n' ∉ line →
      lines (line ++ '\r' :: '\n' :: rest) = line :: lines rest := by
    intro line rest hnot
    induction line with
    | nil => rfl
    | cons c line ih =>
      rw [List.mem_cons, not_or] at hnot
      rw [List.cons_append, lines.eq_4 c _ (fun heq => hnot.1 heq.symm), ih hnot.2]
      rintro rest' - heq
      cases line with
      | nil => cases heq
      | cons d line => exact hnot.2 ((List.cons.inj heq).1 ▸ List.mem_cons_self)
  induction ls with
  | nil => rfl
  | cons line ls ih =>
    rw [List.forall_mem_cons] at h
    rw [List.flatMap_cons, List.append_assoc, List.cons_append, List.cons_append, List.nil_append,
      hline line _ h.1, ih h.2]

end Text

namespace Source

/-! ## Sections -/

/-- The lines are the sections one after the other, with blank lines anywhere between them. A
section is the line of a declaration, or the lines of a block. -/
inductive Cut : List (List Char) → List (List (List Char)) → Prop where
  | nil : Cut [] []
  | blank {line : List Char} {lines : List (List Char)} {sections : List (List (List Char))} :
      Line.SpelledBy .blank line → Cut lines sections → Cut (line :: lines) sections
  | header {line : List Char} {lines : List (List Char)} {sections : List (List (List Char))}
      {sec : Section} {words : List (List Char)} :
      (Line.header sec words).SpelledBy line → Cut lines sections →
        Cut (line :: lines) ([line] :: sections)
  | block {block lines : List (List Char)} {sections : List (List (List Char))}
      {said : List Line} :
      Says block said → IsBlock said → Cut lines sections →
        Cut (block ++ lines) (block :: sections)

/-- What lines say, apart from malformed ones. -/
def sayings (lines : List (List Char)) : List Line := lines.filterMap Line.said?

/-- The section is a block. -/
def isBlockSection (lines : List (List Char)) : Bool := (sayings lines).any Line.isOpening

theorem sayings_append (lines lines' : List (List Char)) :
    sayings (lines ++ lines') = sayings lines ++ sayings lines' :=
  List.filterMap_append

theorem sayings_cons {chars : List Char} {line : Line} (h : line.SpelledBy chars)
    (rest : List (List Char)) : sayings (chars :: rest) = line :: sayings rest :=
  List.filterMap_cons_some (Line.said?_eq_some_iff.2 h)

theorem Says.sayings_eq {lines : List (List Char)} {said : List Line} (h : Says lines said) :
    sayings lines = said := by
  induction h with
  | nil => rfl
  | cons hline _ ih => rw [sayings_cons hline, ih]

/-- A block has one opening line. -/
theorem IsBlock.countP_isOpening {said : List Line} (h : IsBlock said) :
    said.countP Line.isOpening = 1 := by
  rcases h with ⟨row, rfl⟩ | ⟨row, inner, last, rfl, hinner, hlast⟩
  · rfl
  · have hnone : (inner ++ [last]).countP Line.isOpening = 0 := by
      rw [List.countP_eq_zero]
      intro line hline
      rcases List.mem_append.1 hline with hline | hline
      · have hin := hinner line hline
        cases line <;> simp_all [Line.isOpening, Line.IsInner]
      · rw [List.mem_singleton.1 hline]
        cases last <;> simp_all [Line.isOpening, Line.IsLast]
    rw [List.countP_cons, hnone]
    rfl

theorem countP_isOpening_of_isOuter {said : List Line} (h : ∀ line ∈ said, line.IsOuter) :
    said.countP Line.isOpening = 0 := by
  rw [List.countP_eq_zero]
  intro line hline
  have houter := h line hline
  cases line <;> simp_all [Line.isOpening, Line.IsOuter]

theorem Arranged.countP_isOpening_le {said : List Line} (h : Arranged said) :
    said.countP Line.isOpening ≤ 1 := by
  obtain ⟨before, block, after, rfl, houter, hblock⟩ := h
  rw [List.forall_mem_append] at houter
  rw [List.countP_append, List.countP_append, countP_isOpening_of_isOuter houter.1,
    countP_isOpening_of_isOuter houter.2]
  rcases hblock with rfl | hblock
  · simp
  · rw [hblock.countP_isOpening]

namespace Cut

variable {lines : List (List Char)} {sections : List (List (List Char))}

theorem says_lines (h : Cut lines sections) : Says lines (sayings lines) := by
  induction h with
  | nil => exact .nil
  | blank hline _ ih =>
    rw [sayings_cons hline]
    exact .cons hline ih
  | header hline _ ih =>
    rw [sayings_cons hline]
    exact .cons hline ih
  | block hspelled _ _ ih =>
    rw [sayings_append, hspelled.sayings_eq]
    exact List.rel_append hspelled ih

/-- **What lines declare, section by section.** -/
theorem declared_eq (h : Cut lines sections) (sec : Section) :
    declared sec (sayings lines) = sections.flatMap fun s => declared sec (sayings s) := by
  induction h with
  | nil => rfl
  | blank hline _ ih =>
    rw [sayings_cons hline, declared_cons, ih]
    rfl
  | header hline _ ih =>
    rw [sayings_cons hline, declared_cons, ih, List.flatMap_cons, sayings_cons hline]
    rfl
  | block _ _ _ ih => rw [sayings_append, declared_append, ih, List.flatMap_cons]

theorem isBlockSection_header {line : List Char} {sec : Section} {words : List (List Char)}
    (h : (Line.header sec words).SpelledBy line) : isBlockSection [line] = false := by
  rw [isBlockSection, sayings_cons h]
  rfl

theorem isBlockSection_block {block : List (List Char)} {said : List Line}
    (hspelled : Says block said) (hblock : IsBlock said) : isBlockSection block = true := by
  rw [isBlockSection, hspelled.sayings_eq, List.any_eq_true, ← List.countP_pos_iff,
    hblock.countP_isOpening]
  exact Nat.one_pos

/-- **Rows come from blocks only.** -/
theorem rowsOf_eq (h : Cut lines sections) :
    rowsOf (sayings lines) =
      (sections.filter isBlockSection).flatMap fun s => rowsOf (sayings s) := by
  induction h with
  | nil => rfl
  | blank hline _ ih =>
    rw [sayings_cons hline, rowsOf_cons, ih]
    rfl
  | header hline _ ih =>
    rw [sayings_cons hline, rowsOf_cons, ih,
      List.filter_cons_of_neg (by simp [isBlockSection_header hline])]
    rfl
  | block hspelled hblock _ ih =>
    rw [sayings_append, rowsOf_append, ih,
      List.filter_cons_of_pos (isBlockSection_block hspelled hblock), List.flatMap_cons]

theorem countP_isOpening (h : Cut lines sections) :
    (sayings lines).countP Line.isOpening = (sections.filter isBlockSection).length := by
  induction h with
  | nil => rfl
  | blank hline _ ih =>
    rw [sayings_cons hline, List.countP_cons_of_neg (by decide), ih]
  | header hline _ ih =>
    rw [sayings_cons hline, List.countP_cons_of_neg Bool.false_ne_true, ih,
      List.filter_cons_of_neg (by simp [isBlockSection_header hline])]
  | block hspelled hblock _ ih =>
    rw [sayings_append, List.countP_append, ih, hspelled.sayings_eq, hblock.countP_isOpening,
      List.filter_cons_of_pos (isBlockSection_block hspelled hblock), List.length_cons, Nat.add_comm]

theorem length_blocks_le (h : Cut lines sections) (harranged : Arranged (sayings lines)) :
    (sections.filter isBlockSection).length ≤ 1 := by
  rw [← h.countP_isOpening]
  exact harranged.countP_isOpening_le

theorem isOuter_of_no_block (h : Cut lines sections)
    (hnone : sections.filter isBlockSection = []) : ∀ line ∈ sayings lines, line.IsOuter := by
  induction h with
  | nil => exact fun line hline => by cases hline
  | blank hline _ ih =>
    rw [sayings_cons hline, List.forall_mem_cons]
    exact ⟨trivial, ih hnone⟩
  | header hline _ ih =>
    rw [List.filter_cons_of_neg (by simp [isBlockSection_header hline])] at hnone
    rw [sayings_cons hline, List.forall_mem_cons]
    exact ⟨trivial, ih hnone⟩
  | block hspelled hblock _ ih =>
    rw [List.filter_cons_of_pos (isBlockSection_block hspelled hblock)] at hnone
    cases hnone

/-- **With one block at most, the sections may stand in any order.** -/
theorem arranged (h : Cut lines sections)
    (honce : (sections.filter isBlockSection).length ≤ 1) : Arranged (sayings lines) := by
  have houter : ∀ {line : Line} {rest : List Line}, line.IsOuter → Arranged rest →
      Arranged (line :: rest) :=
    fun hline hrest => (Block.arranged_cons 0).2 (.inl ⟨hline, hrest⟩)
  induction h with
  | nil => exact ⟨[], [], [], rfl, by simp, .inl rfl⟩
  | blank hline _ ih =>
    rw [sayings_cons hline]
    exact houter trivial (ih honce)
  | header hline _ ih =>
    rw [List.filter_cons_of_neg (by simp [isBlockSection_header hline])] at honce
    rw [sayings_cons hline]
    exact houter trivial (ih honce)
  | @block block rest sections said hspelled hblock hrest ih =>
    -- No block follows this one, so blank lines and declarations do.
    rw [List.filter_cons_of_pos (isBlockSection_block hspelled hblock), List.length_cons] at honce
    have hnone : sections.filter isBlockSection = [] := List.length_eq_zero_iff.1 (by omega)
    refine ⟨[], said, sayings rest, ?_, hrest.isOuter_of_no_block hnone, .inr hblock⟩
    rw [sayings_append, hspelled.sayings_eq]
    rfl

/-- Sections can be put together in any order. -/
theorem flatten_perm (h : Cut lines sections) {sections' : List (List (List Char))}
    (hperm : sections.Perm sections') : Cut sections'.flatten sections' := by
  have hall : ∀ s ∈ sections, ∀ {rest : List (List Char)} {others : List (List (List Char))},
      Cut rest others → Cut (s ++ rest) (s :: others) := by
    clear hperm
    induction h with
    | nil => exact fun s hs => by cases hs
    | blank _ _ ih => exact ih
    | header hline _ ih => exact List.forall_mem_cons.2 ⟨fun hrest => .header hline hrest, ih⟩
    | block hspelled hblock _ ih =>
      exact List.forall_mem_cons.2 ⟨fun hrest => .block hspelled hblock hrest, ih⟩
  have hall' : ∀ s ∈ sections', s ∈ sections := fun s hs => hperm.mem_iff.2 hs
  clear hperm
  induction sections' with
  | nil => exact .nil
  | cons s others ih =>
    rw [List.forall_mem_cons] at hall'
    exact hall s hall'.1 (ih hall'.2)

theorem mem_of_mem_section (h : Cut lines sections) {s : List (List Char)} (hs : s ∈ sections)
    {line : List Char} (hline : line ∈ s) : line ∈ lines := by
  induction h with
  | nil => cases hs
  | blank _ _ ih => exact List.mem_cons_of_mem _ (ih hs)
  | header _ _ ih =>
    rcases List.mem_cons.1 hs with rfl | hs
    · exact List.mem_cons.2 (.inl (List.mem_singleton.1 hline))
    · exact List.mem_cons_of_mem _ (ih hs)
  | block _ _ _ ih =>
    rcases List.mem_cons.1 hs with rfl | hs
    · exact List.mem_append_left _ hline
    · exact List.mem_append_right _ (ih hs)

end Cut

/-! ## Accepted texts -/

theorem exists_cut_of_isOuter {lines rest : List (List Char)} {said : List Line}
    {sections : List (List (List Char))} (hspelled : Says lines said)
    (houter : ∀ line ∈ said, line.IsOuter) (hrest : Cut rest sections) :
    ∃ sections', Cut (lines ++ rest) sections' := by
  induction hspelled with
  | nil => exact ⟨sections, hrest⟩
  | @cons chars line _ _ hline _ ih =>
    rw [List.forall_mem_cons] at houter
    obtain ⟨sections', hcut⟩ := ih houter.2
    cases line with
    | blank => exact ⟨sections', .blank hline hcut⟩
    | header sec words => exact ⟨_, .header hline hcut⟩
    | _ => cases houter.1

theorem Says.exists_append {lines : List (List Char)} {said said' : List Line}
    (h : Says lines (said ++ said')) :
    ∃ lines₁ lines₂, lines = lines₁ ++ lines₂ ∧ Says lines₁ said ∧ Says lines₂ said' :=
  ⟨lines.take said.length, lines.drop said.length, (List.take_append_drop _ _).symm,
    List.forall₂_take_append _ _ _ h, List.forall₂_drop_append _ _ _ h⟩

/-- **Lines that are arranged as they have to be can be cut into sections.** -/
theorem exists_cut {lines : List (List Char)} {said : List Line} (hspelled : Says lines said)
    (harranged : Arranged said) : ∃ sections, Cut lines sections := by
  obtain ⟨before, block, after, rfl, houter, hblock⟩ := harranged
  rw [List.forall_mem_append] at houter
  obtain ⟨lines₁, rest, rfl, hbefore, hrest⟩ := hspelled.exists_append
  obtain ⟨lines₂, lines₃, rfl, hsaid, hafter⟩ := hrest.exists_append
  have hcut : ∃ sections, Cut lines₃ sections := by
    rw [← List.append_nil lines₃]
    exact exists_cut_of_isOuter hafter houter.2 .nil
  obtain ⟨sections, hcut⟩ := hcut
  rcases hblock with rfl | hblock
  · obtain rfl := List.forall₂_nil_right_iff.1 hsaid
    exact exists_cut_of_isOuter hbefore houter.1 hcut
  · exact exists_cut_of_isOuter hbefore houter.1 (.block hsaid hblock hcut)

theorem eq_of_perm_of_length_le_one {α : Type} {l l' : List α} (h : l.Perm l')
    (hlength : l.length ≤ 1) : l' = l := by
  rcases l with _ | ⟨a, _ | ⟨b, rest⟩⟩
  · exact List.nil_perm.1 h
  · exact (List.singleton_perm.1 h).symm
  · simp at hlength

/-- **The sections of a text may stand in any order.** An accepted text can be cut into its
sections; however they are rearranged, they can be written down in this order, and every text that
has them in this order, with blank lines anywhere between them, is accepted as the same grammar. -/
theorem read_of_rearranged {maxRules : Nat} {text : String} {g : Grammar}
    (hread : read maxRules text = .ok g) :
    (∃ sections, Cut (Text.lines text.toList) sections) ∧
      ∀ sections sections', Cut (Text.lines text.toList) sections → sections.Perm sections' →
        (∃ text' : String, Cut (Text.lines text'.toList) sections') ∧
          ∀ text' : String, Cut (Text.lines text'.toList) sections' →
            read maxRules text' = .ok g := by
  obtain ⟨said, start, hspelled, harranged, honce, hcons, hg⟩ := read_eq_ok_iff.1 hread
  refine ⟨exists_cut hspelled harranged, ?_⟩
  intro sections sections' hcut hperm
  constructor
  · have hlines : ∀ line ∈ sections'.flatten, '\n' ∉ line := by
      intro line hline
      obtain ⟨s, hs, hline⟩ := List.mem_flatten.1 hline
      exact Text.notMem_of_mem_lines (hcut.mem_of_mem_section (hperm.mem_iff.2 hs) hline)
    refine ⟨String.ofList (sections'.flatten.flatMap fun line => line ++ ['\r', '\n']), ?_⟩
    rw [String.toList_ofList, Text.lines_written hlines]
    exact hcut.flatten_perm hperm
  · intro text' hcut'
    rw [← hspelled.sayings_eq] at harranged honce hcons hg
    -- No section is declared twice and there is one block at most, so their order is not seen.
    have hdeclared : ∀ sec, declared sec (sayings (Text.lines text'.toList)) =
        declared sec (sayings (Text.lines text.toList)) := by
      intro sec
      have hflat := hperm.flatMap_right fun s => declared sec (sayings s)
      rw [← hcut.declared_eq, ← hcut'.declared_eq] at hflat
      exact eq_of_perm_of_length_le_one hflat (honce sec)
    have hblocks : sections'.filter isBlockSection = sections.filter isBlockSection :=
      eq_of_perm_of_length_le_one (hperm.filter _) (hcut.length_blocks_le harranged)
    have hrows : rowsOf (sayings (Text.lines text'.toList)) =
        rowsOf (sayings (Text.lines text.toList)) := by
      rw [hcut.rowsOf_eq, hcut'.rowsOf_eq, hblocks]
    refine read_eq_ok_iff.2 ⟨_, start, hcut'.says_lines, hcut'.arranged ?_, ?_, ?_, ?_⟩
    · rw [hblocks]
      exact hcut.length_blocks_le harranged
    · intro sec
      rw [hdeclared]
      exact honce sec
    · simp only [hdeclared, hrows]
      exact hcons
    · simp only [hdeclared, hrows]
      exact hg

/-- A text with its block between the two declarations. -/
def framedText : String := "T = a, b\n\nP = \x7b S -> aS\n\nS -> b \x7d\nS = S"

/-- The block, down to the row that closes it. -/
def framedBlock : List (List Char) :=
  ["P = \x7b S -> aS".toList, [], "S -> b \x7d".toList]

/-- The block may as well come first, with the declarations in the other order after it. -/
theorem read_of_rearranged_framed :
    ∃ g, read 1 framedText = .ok g ∧
      read 1 "P = \x7b S -> aS\n\nS -> b \x7d\n\n# start\nS = S\nT = a, b\n" = .ok g := by
  obtain ⟨g, hread⟩ : ∃ g, read 1 framedText = .ok g := ⟨_, rfl⟩
  have hblock : ∃ said, Says framedBlock said ∧ IsBlock said := by
    refine ⟨[.openBlock (some ⟨'S', [[.terminal 'a', .nonterminal 'S']]⟩) false, .blank,
      .row ⟨'S', [[.terminal 'b']]⟩ true], ?_, .inr ⟨_, [.blank], _, rfl, ?_, rfl⟩⟩
    · exact .cons (Line.said?_eq_some_iff.1 rfl) (.cons (Line.said?_eq_some_iff.1 rfl)
        (.cons (Line.said?_eq_some_iff.1 rfl) .nil))
    · exact List.forall_mem_singleton.2 trivial
  obtain ⟨said, hspelled, hblock⟩ := hblock
  have hterminals : (Line.header .terminals [['a'], ['b']]).SpelledBy "T = a, b".toList :=
    Line.said?_eq_some_iff.1 rfl
  have hstart : (Line.header .start [['S']]).SpelledBy "S = S".toList :=
    Line.said?_eq_some_iff.1 rfl
  have hcut : Cut (Text.lines framedText.toList)
      [["T = a, b".toList], framedBlock, ["S = S".toList]] :=
    .header hterminals (.blank (Line.said?_eq_some_iff.1 rfl) (.block hspelled hblock
      (.header hstart .nil)))
  have hcut' : Cut (Text.lines
        "P = \x7b S -> aS\n\nS -> b \x7d\n\n# start\nS = S\nT = a, b\n".toList)
      [framedBlock, ["S = S".toList], ["T = a, b".toList]] :=
    .block hspelled hblock (.blank (Line.said?_eq_some_iff.1 rfl)
      (.blank (Line.said?_eq_some_iff.1 rfl) (.header hstart (.header hterminals .nil))))
  exact ⟨g, hread, ((read_of_rearranged hread).2 _ _ hcut (by decide)).2 _ hcut'⟩

end Source

end PhraseStructure
