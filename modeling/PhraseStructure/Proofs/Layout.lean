import PhraseStructure.Proofs.Scanning

/-!
# What the layout of a text may be

Comments, the choice between two spellings of a mark, and lines on which nothing stands mean
nothing. The first two leave the tokens of every line as they are. A line without tokens is passed
over, but it moves the lines after it: all that is read of a text is read again with the new
numbers (`Outline.renumber`), and they are seen in the places of problems only.

* `Outline.readLine_renumber`, `Outline.toGrammar_renumber`: reading a line, and comparing the
  sections, with other numbers.
* `foldl_readLine_of_sublist`: idle lines are passed over.
* `read_of_layout`: texts that differ in their layout are read alike.
-/

namespace PhraseStructure

/-- The place in a text whose lines have other numbers. -/
def Place.renumber (f : Nat → Nat) : Place → Place
  | grammar => grammar
  | line number => line (f number)

/-- The problem in a text whose lines have other numbers. -/
def Located.renumber {α : Type} (f : Nat → Nat) (p : Located α) : Located α :=
  ⟨p.place.renumber f, p.cause⟩

namespace Source

/-! ## Reading with other numbers -/

/-- The declaration on a line with another number. -/
def Declaration.renumber (f : Nat → Nat) (d : Declaration) : Declaration := ⟨d.words, f d.line⟩

/-- The block, opened on a line with another number. -/
def Block.renumber (f : Nat → Nat) : Block → Block
  | unopened => unopened
  | inside openedAt => inside (f openedAt)
  | outside openedAt => outside (f openedAt)

namespace Outline

/-- What has been read, from lines with other numbers. -/
def renumber (f : Nat → Nat) (o : Outline) : Outline where
  nonterminals := o.nonterminals.map (Declaration.renumber f)
  terminals := o.terminals.map (Declaration.renumber f)
  start := o.start.map (Declaration.renumber f)
  block := o.block.renumber f
  rows := o.rows.map (Prod.map id f)
  problems := o.problems.map (Located.renumber f)

variable (f : Nat → Nat) (o : Outline)

theorem report_renumber (number : Nat) (cause : Cause) :
    (o.renumber f).report (f number) cause = (o.report number cause).renumber f := rfl

theorem isInside_renumber : (o.renumber f).block.isInside = o.block.isInside := by
  show (o.block.renumber f).isInside = _
  cases o.block <;> rfl

theorem declare_renumber (sec : Section) (d : Declaration) :
    (o.renumber f).declare sec (d.renumber f) = (o.declare sec d).renumber f := by
  have hdeclaration : (o.renumber f).declaration? sec =
      (o.declaration? sec).map (Declaration.renumber f) := by
    cases sec <;> rfl
  unfold declare
  rw [hdeclaration]
  cases o.declaration? sec with
  | none => cases sec <;> rfl
  | some d => rfl

theorem leaveBlock_renumber : (o.renumber f).leaveBlock = o.leaveBlock.renumber f := by
  have hblock : (o.renumber f).block = o.block.renumber f := rfl
  unfold leaveBlock
  rw [hblock]
  cases o.block <;> rfl

theorem openBlock_renumber (number : Nat) (row : Option Row) (closes : Bool) :
    (o.renumber f).openBlock (f number) row closes =
      (o.openBlock number row closes).renumber f := by
  have hblock : (o.renumber f).block = o.block.renumber f := rfl
  unfold Outline.openBlock
  rw [hblock]
  cases o.block with
  | unopened => cases row <;> cases closes <;> rfl
  | _ => cases closes <;> rfl

theorem add_renumber (number : Nat) (line : Line) :
    (o.renumber f).add (f number) line = (o.add number line).renumber f := by
  have hclose : ∀ b : Block, (b.renumber f).close = b.close.renumber f := by
    intro b
    cases b <;> rfl
  cases line with
  | blank => rfl
  | header sec words =>
    show (o.renumber f).leaveBlock.declare sec (Declaration.renumber f ⟨words, number⟩) = _
    rw [leaveBlock_renumber, declare_renumber]
    rfl
  | openBlock row closes => exact openBlock_renumber f o number row closes
  | row row closes =>
    cases closes with
    | true =>
      show Outline.mk _ _ _ (o.block.renumber f).close _ _ = _
      rw [hclose]
      rfl
    | false => rfl
  | closeBlock =>
    show Outline.mk _ _ _ (o.block.renumber f).close _ _ = _
    rw [hclose]
    rfl

/-- **A line is read alike under another number.** -/
theorem readLine_renumber (chars : List Char) (number : Nat) :
    (o.renumber f).readLine (chars, f number) = (o.readLine (chars, number)).renumber f := by
  unfold readLine
  rw [isInside_renumber]
  cases Line.ofChars o.block.isInside chars with
  | ok line => exact add_renumber f o number line
  | error cause => exact report_renumber f o number cause

/-- And so are all lines. -/
theorem foldl_renumber (lines : List (List Char × Nat)) :
    (lines.map (Prod.map id f)).foldl readLine (o.renumber f) =
      (lines.foldl readLine o).renumber f := by
  induction lines generalizing o with
  | nil => rfl
  | cons line rest ih =>
    obtain ⟨chars, number⟩ := line
    rw [List.map_cons, List.foldl_cons, List.foldl_cons, ← ih, ← readLine_renumber]
    rfl

/-! ## Comparing the sections -/

theorem startSymbol_renumber (d : Option Declaration) :
    startSymbol (d.map (Declaration.renumber f)) =
      ((startSymbol d).map (Prod.map id f)).mapError (Located.renumber f) := by
  rcases d with _ | ⟨_ | ⟨_ | ⟨c, _ | ⟨c', word⟩⟩, _ | ⟨word', words⟩⟩, line⟩
  case some.cons.cons.nil.nil =>
    unfold startSymbol
    simp only [Option.map_some, Declaration.renumber]
    cases c.isUpper <;> rfl
  all_goals rfl

theorem badWords_renumber : (o.renumber f).badWords = o.badWords.map (Located.renumber f) := by
  have hwords : ∀ (d : Option Declaration) (wanted : Symbol → Bool),
      ((d.map (Declaration.renumber f)).map fun d => d.badWords wanted).getD [] =
        ((d.map fun d => d.badWords wanted).getD []).map (Located.renumber f) := by
    intro d wanted
    cases d with
    | none => rfl
    | some d =>
      show List.map _ _ = List.map _ (List.map _ _)
      rw [List.map_map]
      rfl
  rw [badWords, badWords, List.map_append, ← hwords, ← hwords]
  rfl

theorem declared_renumber :
    (o.renumber f).declaredNonterminals = o.declaredNonterminals ∧
      (o.renumber f).declaredTerminals = o.declaredTerminals :=
  ⟨Option.map_map _ _ _, Option.map_map _ _ _⟩

theorem productions_renumber :
    (o.renumber f).productions = o.productions.map (Prod.map id f) := by
  show ((o.rows.map (Prod.map id f)).reverse.flatMap _) = _
  rw [← List.map_reverse, List.flatMap_map, Outline.productions, List.map_flatMap]
  refine congrArg (List.flatMap · _) (funext fun entry => ?_)
  show List.map _ entry.1.alternatives = List.map _ (List.map _ entry.1.alternatives)
  rw [List.map_map]
  rfl

theorem undeclaredIn_renumber (nonterminals terminals : Option Alphabet)
    (entry : Production × Nat) :
    undeclaredIn nonterminals terminals (Prod.map id f entry) =
      (undeclaredIn nonterminals terminals entry).map (Located.renumber f) := by
  obtain ⟨p, line⟩ := entry
  have hleft : ∀ (missing : Bool) (cause : Cause),
      (if missing then [.atLine (f line) cause] else []) =
        List.map (Located.renumber f) (if missing then [.atLine line cause] else []) := by
    intro missing cause
    cases missing <;> rfl
  have hright : ∀ (missing : Bool) (cause : Cause),
      (if missing then some (.atLine (f line) cause) else none) =
        Option.map (Located.renumber f) (if missing then some (.atLine line cause) else none) := by
    intro missing cause
    cases missing <;> rfl
  show _ ++ _ = List.map _ (_ ++ _)
  rw [List.map_append, List.map_filterMap]
  exact congrArg₂ _ (hleft _ _) (List.filterMap_congr fun s _ => hright _ _)

theorem problemsWith_renumber (maxRules : Nat) (start : Char) (line : Nat) :
    (o.renumber f).problemsWith maxRules start (f line) =
      (o.problemsWith maxRules start line).map (Located.renumber f) := by
  have hproductions : (o.renumber f).productions.map Prod.fst = o.productions.map Prod.fst := by
    rw [productions_renumber, List.map_map]
    rfl
  unfold problemsWith
  simp only [hproductions, (declared_renumber f o).1, (declared_renumber f o).2, badWords_renumber,
    List.map_append]
  congr 1
  · congr 1
    · congr 1
      split <;> rfl
    · rw [productions_renumber, List.flatMap_map, List.map_flatMap]
      exact congrArg (List.flatMap · _) (funext (undeclaredIn_renumber f _ _))
  · split <;> rfl

theorem assemble_renumber (start : Char) : (o.renumber f).assemble start = o.assemble start := by
  have hproductions : (o.renumber f).productions.map Prod.fst = o.productions.map Prod.fst := by
    rw [productions_renumber, List.map_map]
    rfl
  unfold assemble
  simp only [hproductions, (declared_renumber f o).1, (declared_renumber f o).2]

theorem check_renumber (maxRules : Nat) : (o.renumber f).check maxRules =
    (o.check maxRules).mapError (List.map (Located.renumber f)) := by
  have hstart : startSymbol (o.renumber f).start = _ := startSymbol_renumber f o.start
  unfold check
  rw [hstart]
  cases startSymbol o.start with
  | error problem =>
    show Except.error ((o.renumber f).badWords ++ _) = Except.error _
    rw [badWords_renumber, List.map_append]
    rfl
  | ok found =>
    obtain ⟨start, line⟩ := found
    simp only [Except.map, Except.mapError, Prod.map, id, problemsWith_renumber, assemble_renumber]
    cases o.problemsWith maxRules start line <;> rfl

/-- **The numbers of the lines are seen in the places of problems only.** -/
theorem toGrammar_renumber (maxRules : Nat) : (o.renumber f).toGrammar maxRules =
    (o.toGrammar maxRules).mapError (List.map (Located.renumber f)) := by
  have hproblems : (o.renumber f).problems = o.problems.map (Located.renumber f) := rfl
  unfold toGrammar
  rw [hproblems]
  cases o.problems with
  | nil => exact check_renumber f o maxRules
  | cons p rest =>
    show Except.error _ = Except.error _
    rw [← List.map_reverse]

end Outline

/-! ## Lines with the same tokens -/

/-- The second line is the first one, perhaps with a comment after it. -/
def Commented (line line' : List Char) : Prop :=
  line' = line ∨ ∃ comment, line' = line ++ '#' :: comment

theorem scan_commented {line line' : List Char} (h : Commented line line') :
    Token.scan line' = Token.scan line := by
  rcases h with rfl | ⟨comment, rfl⟩
  · rfl
  · exact Token.scanFrom_append_comment [] line comment

/-- Texts whose lines have the same tokens are read alike. -/
theorem read_eq_of_forall₂ {R : List Char → List Char → Prop}
    (hR : ∀ line line', R line line' → Token.scan line' = Token.scan line) {text text' : String}
    (h : List.Forall₂ R (Text.lines text.toList) (Text.lines text'.toList)) (maxRules : Nat) :
    read maxRules text' = read maxRules text := by
  have hreadLine : ∀ {line line'}, R line line' → ∀ (o : Outline) (number : Nat),
      o.readLine (line', number) = o.readLine (line, number) := by
    intro line line' hline o number
    simp only [Outline.readLine, Line.ofChars, hR line line' hline]
  have hfoldl : ∀ {lines lines'}, List.Forall₂ R lines lines' → ∀ (o : Outline) (first : Nat),
      (lines'.zipIdx first).foldl Outline.readLine o =
        (lines.zipIdx first).foldl Outline.readLine o := by
    intro lines lines' hlines
    induction hlines with
    | nil => exact fun _ _ => rfl
    | cons hline _ ih =>
      intro o first
      simp only [List.zipIdx_cons, List.foldl_cons]
      rw [hreadLine hline, ih]
  simp only [read, Outline.ofChars, Outline.ofLines, hfoldl h]

end Source

/-! ## Respelled texts -/

namespace Text

theorem lines_return {rest : List Char} (h : rest.head? ≠ some '\n') :
    lines ('\r' :: rest) =
      match lines rest with
      | [] => [['\r']]
      | line :: later => ('\r' :: line) :: later := by
  refine lines.eq_4 '\r' rest (by decide) ?_
  rintro rest' - rfl
  exact h rfl

/-- Plain characters at the front of a text belong to its first line. -/
theorem lines_prepend {front : List Char} (h : front ≠ [] ∧ front.all isPlain = true)
    (rest : List Char) :
    lines (front ++ rest) =
      match lines rest with
      | [] => [front]
      | line :: later => (front ++ line) :: later := by
  obtain ⟨hne, hplain⟩ := h
  induction front with
  | nil => exact absurd rfl hne
  | cons c front ih =>
    rw [List.all_cons, Bool.and_eq_true] at hplain
    rw [List.cons_append, lines_cons hplain.1]
    cases front with
    | nil => rfl
    | cons d front =>
      rw [ih (List.cons_ne_nil d front) hplain.2]
      cases lines rest <;> rfl

end Text

namespace Source

open Text

/-- Texts that start in two spellings of one thing, and go on alike. -/
theorem forall₂_lines_prepend {rest rest' : List Char} (front front' : List Char)
    (h : front ≠ [] ∧ front.all isPlain = true)
    (h' : front' ≠ [] ∧ front'.all isPlain = true)
    (hfront : ∀ {cs cs'}, Respelled cs cs' → Respelled (front ++ cs) (front' ++ cs'))
    (hrest : List.Forall₂ Respelled (lines rest) (lines rest')) :
    List.Forall₂ Respelled (lines (front ++ rest)) (lines (front' ++ rest')) := by
  rw [lines_prepend h, lines_prepend h']
  generalize lines rest = ls, lines rest' = ls' at hrest
  cases hrest with
  | nil =>
    have hend := hfront .nil
    rw [List.append_nil, List.append_nil] at hend
    exact .cons hend .nil
  | cons hline hlater => exact .cons (hfront hline) hlater

/-- **Respelling a text respells its lines,** since a line end has no other spelling. -/
theorem forall₂_lines_of_respelled {text text' : List Char} (h : Respelled text text') :
    List.Forall₂ Respelled (lines text) (lines text') := by
  induction h with
  | nil => exact .nil
  | @same c cs cs' h ih =>
    by_cases hplain : isPlain c = true
    · have hfront : [c] ≠ [] ∧ [c].all isPlain = true := by simpa using hplain
      exact forall₂_lines_prepend [c] [c] hfront hfront (.same c) ih
    · obtain rfl | rfl : c = '\n' ∨ c = '\r' := by
        rw [isPlain_iff] at hplain
        tauto
      · exact .cons .nil ih
      · -- A carriage return belongs to the line end if a line feed follows it.
        by_cases hhead : cs.head? = some '\n'
        · obtain ⟨rest, rfl⟩ := List.head?_eq_some_iff.1 hhead
          cases h with
          | same _ h => exact ih
        · rw [lines_return hhead, lines_return (h.head?_ne (by decide) hhead)]
          generalize lines cs = ls, lines cs' = ls' at ih
          cases ih with
          | nil => exact .cons (.same _ .nil) .nil
          | cons hline hlater => exact .cons (.same _ hline) hlater
  | dashArrow _ ih =>
    exact forall₂_lines_prepend ['→'] ['-', '>'] (by decide) (by decide) .dashArrow ih
  | arrow _ ih =>
    exact forall₂_lines_prepend ['-', '>'] ['→'] (by decide) (by decide) .arrow ih
  | epsilon _ ih => exact forall₂_lines_prepend ['λ'] ['ε'] (by decide) (by decide) .epsilon ih
  | lambda _ ih => exact forall₂_lines_prepend ['ε'] ['λ'] (by decide) (by decide) .lambda ih
  | blank _ ih => exact forall₂_lines_prepend [','] [' '] (by decide) (by decide) .blank ih
  | comma _ ih => exact forall₂_lines_prepend [' '] [','] (by decide) (by decide) .comma ih

/-! ## Idle lines -/

/-- Nothing stands on the line: it is blank, or a comment comes after blanks only. -/
def IsIdle (line : List Char) : Prop :=
  ∃ blanks : List Char, (∀ c ∈ blanks, isBlank c = true) ∧ Commented blanks line

theorem scan_idle {line : List Char} (h : IsIdle line) : Token.scan line = .ok [] := by
  obtain ⟨blanks, hblanks, hline⟩ := h
  have hseparators : ∀ c ∈ blanks, Token.isSeparator c = true := by
    intro c hc
    rw [Token.isSeparator, hblanks c hc, Bool.true_or]
  have hscan := Token.scan_append_of_separators hseparators []
  rw [List.append_nil] at hscan
  rw [scan_commented hline, hscan, Token.scan_nil]

theorem readLine_idle {line : List Char} (h : IsIdle line) (o : Outline) (number : Nat) :
    o.readLine (line, number) = o := by
  simp only [Outline.readLine, Line.ofChars, scan_idle h]
  rfl

/-- The second lines are the first ones with idle lines inserted. The places are the numbers that
the first lines have got by this. -/
structure Spaced (lines lines' : List (List Char)) (places : List Nat) : Prop where
  length_eq : places.length = lines.length
  kept : (lines.zip places).Sublist (lines'.zipIdx 1)
  idle : ∀ entry ∈ lines'.zipIdx 1, entry.2 ∉ places → IsIdle entry.1

/-- The number that a line has got. -/
def newNumber (places : List Nat) (number : Nat) : Nat := places[number - 1]?.getD number

/-- **Idle lines are passed over.** -/
theorem foldl_readLine_of_sublist {kept all : List (List Char × Nat)} (h : kept.Sublist all)
    (hnodup : (all.map Prod.snd).Nodup)
    (hidle : ∀ entry ∈ all, entry.2 ∉ kept.map Prod.snd → IsIdle entry.1) (o : Outline) :
    all.foldl Outline.readLine o = kept.foldl Outline.readLine o := by
  induction h generalizing o with
  | slnil => rfl
  | @cons kept all entry h ih =>
    rw [List.map_cons, List.nodup_cons] at hnodup
    rw [List.forall_mem_cons] at hidle
    have hnot : entry.2 ∉ kept.map Prod.snd := fun hmem => hnodup.1 ((h.map _).subset hmem)
    rw [List.foldl_cons, readLine_idle (hidle.1 hnot), ih hnodup.2 hidle.2]
  | @cons_cons kept all entry h ih =>
    rw [List.map_cons, List.nodup_cons] at hnodup
    rw [List.forall_mem_cons] at hidle
    rw [List.foldl_cons, List.foldl_cons]
    refine ih hnodup.2 ?_ _
    intro entry' hentry' hnot
    refine hidle.2 entry' hentry' ?_
    rw [List.map_cons, List.mem_cons]
    rintro (heq | hmem)
    · exact hnodup.1 (heq ▸ List.mem_map_of_mem hentry')
    · exact hnot hmem

theorem Spaced.zip_eq {lines lines' : List (List Char)} {places : List Nat}
    (h : Spaced lines lines' places) :
    lines.zip places = (lines.zipIdx 1).map (Prod.map id (newNumber places)) := by
  refine List.ext_getElem ?_ ?_
  · simp [h.length_eq]
  · intro n hn hn'
    have hlt : n < places.length := by simp at hn; omega
    simp [newNumber, Nat.add_comm 1 n, hlt]

theorem Spaced.ofLines_eq {lines lines' : List (List Char)} {places : List Nat}
    (h : Spaced lines lines' places) :
    Outline.ofLines lines' = (Outline.ofLines lines).renumber (newNumber places) := by
  have hplaces : (lines.zip places).map Prod.snd = places :=
    List.map_snd_zip (Nat.le_of_eq h.length_eq)
  have hnodup : ((lines'.zipIdx 1).map Prod.snd).Nodup := by
    rw [List.zipIdx_map_snd]
    exact List.nodup_range'
  have hfoldl := foldl_readLine_of_sublist h.kept hnodup (by rw [hplaces]; exact h.idle) {}
  rw [Outline.ofLines, hfoldl, h.zip_eq, Outline.ofLines, ← Outline.leaveBlock_renumber,
    ← Outline.foldl_renumber]
  rfl

/-- **The layout of a text does not matter.** Comments after lines, and another spelling of arrows,
of marks for the empty form and of separators, leave what is read of a text as it is; idle lines
leave its grammar as it is, or else its problems but for the numbers of the lines they are at. -/
theorem read_of_layout (maxRules : Nat) (text text' : String) :
    (List.Forall₂ Commented (lines text.toList) (lines text'.toList) →
      read maxRules text' = read maxRules text) ∧
    (Respelled text.toList text'.toList → read maxRules text' = read maxRules text) ∧
    ∀ places, Spaced (lines text.toList) (lines text'.toList) places →
      read maxRules text' =
        (read maxRules text).mapError (List.map (Located.renumber (newNumber places))) := by
  refine ⟨?_, ?_, ?_⟩
  · intro h
    exact read_eq_of_forall₂ (fun _ _ => scan_commented) h maxRules
  · intro h
    exact read_eq_of_forall₂ (fun _ _ => Token.scanFrom_respelled)
      (forall₂_lines_of_respelled h) maxRules
  · intro places h
    rw [read, Outline.ofChars, h.ofLines_eq, Outline.toGrammar_renumber]
    rfl

/-- A text with a stray dash and a stray brace. -/
def strayText : String := "S→λ-,\n\x7d"

/-- A comment right after the dash and the other spellings leave it stray, and the numbers of the
lines follow the idle lines that are inserted. -/
theorem read_of_layout_stray :
    read 10 strayText =
        .error [.atLine 1 (.invalidSymbol "-"), .atLine 2 (.unexpectedToken "\x7d")] ∧
      read 10 "S→λ-,#>\n\x7d" = read 10 strayText ∧
      read 10 "S->ε- \n\x7d" = read 10 strayText ∧
      read 10 " # stray\nS→λ-,\n\n\x7d" =
        .error [.atLine 2 (.invalidSymbol "-"), .atLine 4 (.unexpectedToken "\x7d")] := by
  have hread : read 10 strayText =
      .error [.atLine 1 (.invalidSymbol "-"), .atLine 2 (.unexpectedToken "\x7d")] := rfl
  have hcommented : List.Forall₂ Commented (lines strayText.toList)
      (lines "S→λ-,#>\n\x7d".toList) :=
    .cons (.inr ⟨['>'], rfl⟩) (.cons (.inl rfl) .nil)
  have hrespelled : Respelled strayText.toList "S->ε- \n\x7d".toList :=
    .same _ (.dashArrow (.epsilon (.same _ (.blank (.same _ (.same _ .nil))))))
  have hspaced : Spaced (lines strayText.toList)
      (lines " # stray\nS→λ-,\n\n\x7d".toList) [2, 4] := by
    refine ⟨rfl, by decide, ?_⟩
    show ∀ entry ∈ [(" # stray".toList, 1), ("S→λ-,".toList, 2), ([], 3), (['\x7d'], 4)], _
    simp only [List.forall_mem_cons]
    refine ⟨fun _ => ⟨[' '], List.forall_mem_singleton.2 rfl, .inr ⟨" stray".toList, rfl⟩⟩, ?_,
      fun _ => ⟨[], by simp, .inl rfl⟩, ?_, by simp⟩
    · exact fun h => absurd (List.mem_cons_self) h
    · exact fun h => absurd (by decide) h
  refine ⟨hread, (read_of_layout 10 _ _).1 hcommented, (read_of_layout 10 _ _).2.1 hrespelled, ?_⟩
  rw [(read_of_layout 10 _ _).2.2 [2, 4] hspaced, hread]
  rfl

end Source

end PhraseStructure
