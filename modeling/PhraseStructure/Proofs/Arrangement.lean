import PhraseStructure.Proofs.Spelling

/-!
# How the lines of a text are arranged

Blank lines and declarations, then at most one block of rows, then blank lines and declarations
again. A reader goes through the lines with no more than the state of the block in hand, so the
arrangement is also given from each such state on (`Block.Awaits`).

* `Block.awaits_cons`: one line at a time.
* `Outline.exists_said_of_ofLines`, `Outline.takes_ofLines`: reading the lines reports no problem
  exactly if they are spelled and arranged in this way and no section is declared twice, and then
  the outline holds what they say.
* `Outline.records_ofLines`: it also holds the numbers of the lines.
-/

namespace PhraseStructure.Source

namespace Line

/-- A line that may stand outside the block: blank, or a declaration. -/
def IsOuter : Line → Prop
  | blank => True
  | header _ _ => True
  | _ => False

/-- A line of the block after which it goes on: blank, or a row. -/
def IsInner : Line → Prop
  | blank => True
  | row _ closes => closes = false
  | _ => False

/-- A line that ends the block: a closing brace, alone or after a row. -/
def IsLast : Line → Prop
  | row _ closes => closes = true
  | closeBlock => True
  | _ => False

end Line

/-- The lines of a block. Its first line opens it, and may carry a row and close it as well; if it
does not, blank lines and rows follow, down to the first closing brace. -/
def IsBlock (lines : List Line) : Prop :=
  (∃ row, lines = [.openBlock row true]) ∨
    ∃ row inner last, lines = .openBlock row false :: (inner ++ [last]) ∧
      (∀ line ∈ inner, line.IsInner) ∧ last.IsLast

/-- Blank lines and declarations, with at most one block among them. -/
def Arranged (lines : List Line) : Prop :=
  ∃ before block after, lines = before ++ (block ++ after) ∧
    (∀ line ∈ before ++ after, line.IsOuter) ∧ (block = [] ∨ IsBlock block)

/-- The words of the lines that declare a section. -/
def declared (sec : Section) (lines : List Line) : List (List (List Char)) :=
  lines.filterMap fun
    | .header s words => if s = sec then some words else none
    | _ => none

/-- The rows that the lines carry, in order. -/
def rowsOf (lines : List Line) : List Row := lines.filterMap Line.row?

/-- Each line of a text is spelled by its characters. -/
def Says (lines : List (List Char)) (said : List Line) : Prop :=
  List.Forall₂ (fun chars line => Line.SpelledBy line chars) lines said

theorem declared_append (sec : Section) (lines lines' : List Line) :
    declared sec (lines ++ lines') = declared sec lines ++ declared sec lines' :=
  List.filterMap_append

theorem rowsOf_append (lines lines' : List Line) :
    rowsOf (lines ++ lines') = rowsOf lines ++ rowsOf lines' :=
  List.filterMap_append

theorem declared_cons (sec : Section) (line : Line) (rest : List Line) :
    declared sec (line :: rest) = declared sec [line] ++ declared sec rest :=
  declared_append sec [line] rest

theorem rowsOf_cons (line : Line) (rest : List Line) :
    rowsOf (line :: rest) = rowsOf [line] ++ rowsOf rest :=
  rowsOf_append [line] rest

/-- The declarations of a section among numbered lines. -/
def declarationsIn (sec : Section) (entries : List (Line × Nat)) : List Declaration :=
  entries.filterMap fun
    | (.header s words, number) => if s = sec then some ⟨words, number⟩ else none
    | _ => none

/-- The rows that numbered lines carry, each with its line. -/
def rowsIn (entries : List (Line × Nat)) : List (Row × Nat) :=
  entries.filterMap fun (line, number) => line.row?.map fun row => (row, number)

theorem declarationsIn_cons (sec : Section) (entry : Line × Nat) (rest : List (Line × Nat)) :
    declarationsIn sec (entry :: rest) = declarationsIn sec [entry] ++ declarationsIn sec rest :=
  List.filterMap_append (l := [entry])

theorem rowsIn_cons (entry : Line × Nat) (rest : List (Line × Nat)) :
    rowsIn (entry :: rest) = rowsIn [entry] ++ rowsIn rest :=
  List.filterMap_append (l := [entry])

theorem map_words_declarationsIn (sec : Section) (entries : List (Line × Nat)) :
    (declarationsIn sec entries).map Declaration.words = declared sec (entries.map Prod.fst) := by
  rw [declarationsIn, declared, List.map_filterMap, List.filterMap_map]
  refine List.filterMap_congr ?_
  rintro ⟨line, number⟩ -
  cases line with
  | header s words => by_cases hs : s = sec <;> simp [hs]
  | _ => rfl

theorem map_fst_rowsIn (entries : List (Line × Nat)) :
    (rowsIn entries).map Prod.fst = rowsOf (entries.map Prod.fst) := by
  rw [rowsIn, rowsOf, List.map_filterMap, List.filterMap_map]
  refine List.filterMap_congr ?_
  rintro ⟨line, number⟩ -
  simp [Function.comp_def]

/-! ## Line by line -/

namespace Block

/-- The lines may follow when the block has been read so far. -/
def Awaits : Block → List Line → Prop
  | unopened, lines => Arranged lines
  | inside _, lines => ∃ inner last after, lines = inner ++ last :: after ∧
      (∀ line ∈ inner, line.IsInner) ∧ last.IsLast ∧ ∀ line ∈ after, line.IsOuter
  | outside _, lines => ∀ line ∈ lines, line.IsOuter

/-- The line may come next. -/
def Admits (b : Block) : Line → Prop
  | .blank => True
  | .header _ _ => b.isInside = false
  | .openBlock _ _ => b = unopened
  | .row _ _ => b.isInside = true
  | .closeBlock => b.isInside = true

theorem admits_iff_of_belongsInBlock {b : Block} {line : Line} (h : line.belongsInBlock = true) :
    b.Admits line ↔ b.isInside = true := by
  cases line with
  | row row closes => exact Iff.rfl
  | closeBlock => exact Iff.rfl
  | _ => cases h

/-- The block after a line. -/
def next (b : Block) (number : Nat) : Line → Block
  | .openBlock _ closes => resume closes number
  | .row _ closes => if closes then b.close else b
  | .closeBlock => b.close
  | _ => b

theorem awaits_nil {b : Block} : b.Awaits [] ↔ b.isInside = false := by
  cases b with
  | unopened => exact iff_of_true ⟨[], [], [], rfl, by simp, .inl rfl⟩ rfl
  | inside number => simp [Awaits, isInside]
  | outside number => simp [Awaits, isInside]

/-- A line outside the block changes nothing, and the opening line leads into it or past it. -/
theorem arranged_cons {line : Line} {rest : List Line} (number : Nat) :
    Arranged (line :: rest) ↔ line.IsOuter ∧ Arranged rest ∨
      ∃ row closes, line = .openBlock row closes ∧ (resume closes number).Awaits rest := by
  constructor
  · rintro ⟨before, block, after, hlines, houter, hblock⟩
    cases before with
    | cons first before =>
      obtain ⟨rfl, rfl⟩ := List.cons.inj hlines
      rw [List.cons_append, List.forall_mem_cons] at houter
      exact .inl ⟨houter.1, before, block, after, rfl, houter.2, hblock⟩
    | nil =>
      rcases hblock with rfl | ⟨row, rfl⟩ | ⟨row, inner, last, rfl, hinner, hlast⟩
      · -- Without a block the line is the first one after it.
        simp only [List.nil_append] at hlines houter
        rw [← hlines, List.forall_mem_cons] at houter
        exact .inl ⟨houter.1, [], [], rest, rfl, houter.2, .inl rfl⟩
      · obtain ⟨rfl, rfl⟩ := List.cons.inj hlines
        exact .inr ⟨row, true, rfl, houter⟩
      · obtain ⟨rfl, hrest⟩ := List.cons.inj hlines
        refine .inr ⟨row, false, rfl, inner, last, after, ?_, hinner, hlast, houter⟩
        rw [hrest]
        simp
  · rintro (⟨hline, before, block, after, rfl, houter, hblock⟩ | ⟨row, closes, rfl, hrest⟩)
    · refine ⟨line :: before, block, after, rfl, ?_, hblock⟩
      rw [List.cons_append, List.forall_mem_cons]
      exact ⟨hline, houter⟩
    · cases closes with
      | true => exact ⟨[], [.openBlock row true], rest, rfl, hrest, .inr (.inl ⟨row, rfl⟩)⟩
      | false =>
        obtain ⟨inner, last, after, rfl, hinner, hlast, houter⟩ := hrest
        refine ⟨[], .openBlock row false :: (inner ++ [last]), after, by simp, houter,
          .inr (.inr ?_)⟩
        exact ⟨row, inner, last, rfl, hinner, hlast⟩

theorem awaits_inside_cons {line : Line} {rest : List Line} {number : Nat} :
    (inside number).Awaits (line :: rest) ↔ line.IsInner ∧ (inside number).Awaits rest ∨
      line.IsLast ∧ (outside number).Awaits rest := by
  constructor
  · rintro ⟨inner, last, after, hlines, hinner, hlast, houter⟩
    cases inner with
    | nil =>
      obtain ⟨rfl, rfl⟩ := List.cons.inj hlines
      exact .inr ⟨hlast, houter⟩
    | cons first inner =>
      obtain ⟨rfl, rfl⟩ := List.cons.inj hlines
      rw [List.forall_mem_cons] at hinner
      exact .inl ⟨hinner.1, inner, last, after, rfl, hinner.2, hlast, houter⟩
  · rintro (⟨hline, inner, last, after, rfl, hinner, hlast, houter⟩ | ⟨hline, houter⟩)
    · refine ⟨line :: inner, last, after, rfl, ?_, hlast, houter⟩
      rw [List.forall_mem_cons]
      exact ⟨hline, hinner⟩
    · exact ⟨[], line, rest, rfl, by simp, hline, houter⟩

/-- **The arrangement line by line**: the next line is admitted, and the others may follow it. -/
theorem awaits_cons {b : Block} {line : Line} {rest : List Line} (number : Nat) :
    b.Awaits (line :: rest) ↔ b.Admits line ∧ (b.next number line).Awaits rest := by
  cases b with
  | unopened =>
    have hcons : unopened.Awaits (line :: rest) ↔ _ := arranged_cons number
    rw [hcons]
    cases line with
    | openBlock row closes =>
      constructor
      · rintro (⟨houter, -⟩ | ⟨row', closes', heq, hrest⟩)
        · cases houter
        · obtain ⟨rfl, rfl⟩ := Line.openBlock.inj heq
          exact ⟨rfl, hrest⟩
      · rintro ⟨-, hrest⟩
        exact .inr ⟨row, closes, rfl, hrest⟩
    | _ => simp [Line.IsOuter, Admits, next, isInside, Awaits]
  | inside openedAt =>
    rw [awaits_inside_cons]
    cases line with
    | row row closes =>
      cases closes <;> simp [Line.IsInner, Line.IsLast, Admits, next, isInside, close]
    | _ => simp [Line.IsInner, Line.IsLast, Admits, next, isInside, close]
  | outside openedAt =>
    cases line <;> simp [Line.IsOuter, Admits, next, isInside, Awaits]

end Block

/-! ## What the outline holds -/

namespace Outline

variable {o o' : Outline} {line : Line} {number : Nat}

/-- The words declared for a section so far. -/
def declaredWords (o : Outline) (sec : Section) : List (List (List Char)) :=
  ((o.declaration? sec).map Declaration.words).toList

/-- The rows taken up so far, in order. -/
def rowsRead (o : Outline) : List Row := o.rows.reverse.map Prod.fst

theorem declaredWords_empty (sec : Section) : ({} : Outline).declaredWords sec = [] := by
  cases sec <;> rfl

theorem length_declaredWords_le (o : Outline) (sec : Section) :
    (o.declaredWords sec).length ≤ 1 := by
  unfold declaredWords
  cases o.declaration? sec <;> simp

/-- The second outline is the first one after some lines, none of which was a problem. -/
structure Takes (o : Outline) (lines : List Line) (o' : Outline) : Prop where
  problems : o'.problems = []
  declaredWords : ∀ sec, o'.declaredWords sec = o.declaredWords sec ++ declared sec lines
  rowsRead : o'.rowsRead = o.rowsRead ++ rowsOf lines

theorem takes_nil (h : o.problems = []) : o.Takes [] o where
  problems := h
  declaredWords := fun _ => (List.append_nil _).symm
  rowsRead := (List.append_nil _).symm

theorem Takes.cons {rest : List Line} {o'' : Outline} (h : o.Takes [line] o')
    (h' : o'.Takes rest o'') : o.Takes (line :: rest) o'' where
  problems := h'.problems
  declaredWords := by
    intro sec
    rw [h'.declaredWords, h.declaredWords, declared_cons sec line rest, List.append_assoc]
  rowsRead := by
    rw [h'.rowsRead, h.rowsRead, rowsOf_cons line rest, List.append_assoc]

/-- The second outline is the first one after some numbered lines, each of which it has kept. -/
structure Records (o : Outline) (entries : List (Line × Nat)) (o' : Outline) : Prop where
  declarations : ∀ sec, (o'.declaration? sec).toList =
    (o.declaration? sec).toList ++ declarationsIn sec entries
  rows : o'.rows.reverse = o.rows.reverse ++ rowsIn entries

theorem records_nil (o : Outline) : o.Records [] o where
  declarations := fun _ => (List.append_nil _).symm
  rows := (List.append_nil _).symm

theorem Records.cons {entry : Line × Nat} {rest : List (Line × Nat)} {o'' : Outline}
    (h : o.Records [entry] o') (h' : o'.Records rest o'') : o.Records (entry :: rest) o'' where
  declarations := by
    intro sec
    rw [h'.declarations, h.declarations, declarationsIn_cons sec entry rest, List.append_assoc]
  rows := by
    rw [h'.rows, h.rows, rowsIn_cons entry rest, List.append_assoc]

theorem declaredWords_eq (o : Outline) (sec : Section) :
    o.declaredWords sec = (o.declaration? sec).toList.map Declaration.words := by
  unfold declaredWords
  cases o.declaration? sec <;> rfl

theorem Records.takes {entries : List (Line × Nat)} (h : o.Records entries o')
    (hproblems : o'.problems = []) : o.Takes (entries.map Prod.fst) o' where
  problems := hproblems
  declaredWords := by
    intro sec
    rw [declaredWords_eq, declaredWords_eq, h.declarations, List.map_append,
      map_words_declarationsIn]
  rowsRead := by
    rw [Outline.rowsRead, Outline.rowsRead, h.rows, List.map_append, map_fst_rowsIn]

theorem leaveBlock_of_not_inside (h : o.block.isInside = false) : o.leaveBlock = o := by
  unfold leaveBlock
  split
  · next heq =>
    rw [heq] at h
    cases h
  · rfl

theorem leaveBlock_problems_eq_nil_iff :
    o.leaveBlock.problems = [] ↔ o.problems = [] ∧ o.block.isInside = false := by
  cases hinside : o.block.isInside with
  | false =>
    rw [leaveBlock_of_not_inside hinside]
    simp
  | true =>
    unfold leaveBlock
    split
    · simp [report]
    · next hne =>
      cases hblock : o.block <;> simp_all [Block.isInside]

theorem declare_of_undeclared {sec : Section} {d : Declaration} (h : o.declaration? sec = none) :
    o.declare sec d = o.setDeclaration d sec := by
  unfold declare
  rw [h]

theorem declare_problems_eq_nil_iff {sec : Section} {d : Declaration} :
    (o.declare sec d).problems = [] ↔ o.problems = [] ∧ o.declaration? sec = none := by
  unfold declare
  split
  · next hd => simp [report, hd]
  · next hd => cases sec <;> simp [setDeclaration, hd]

theorem declaration?_setDeclaration (o : Outline) (d : Declaration) (sec sec' : Section) :
    (o.setDeclaration d sec).declaration? sec' =
      if sec = sec' then some d else o.declaration? sec' := by
  cases sec <;> cases sec' <;> rfl

theorem length_append_header_le_iff {sec : Section} {words : List (List Char)} :
    (∀ sec', (o.declaredWords sec' ++ declared sec' [.header sec words]).length ≤ 1) ↔
      o.declaration? sec = none := by
  constructor
  · intro h
    have hsec := h sec
    cases hd : o.declaration? sec with
    | none => rfl
    | some d => simp [declaredWords, hd, declared] at hsec
  · intro hd sec'
    by_cases hsec : sec = sec'
    · subst hsec
      simp [declaredWords, hd, declared]
    · simpa [declared, hsec] using length_declaredWords_le o sec'

/-- **A line is taken up without a problem** if a declaration or the opening of the block comes at
its place, and no section is declared again. -/
theorem add_problems_eq_nil_iff :
    (o.add number line).problems = [] ↔ o.problems = [] ∧
      (line.belongsInBlock = false → o.block.Admits line) ∧
      ∀ sec, (o.declaredWords sec ++ declared sec [line]).length ≤ 1 := by
  have hold : ∀ sec, (o.declaredWords sec ++ []).length ≤ 1 := by
    intro sec
    simpa using length_declaredWords_le o sec
  cases line with
  | blank => exact ⟨fun h => ⟨h, fun _ => trivial, hold⟩, fun h => h.1⟩
  | header sec words =>
    rw [Outline.add, declare_problems_eq_nil_iff, leaveBlock_problems_eq_nil_iff,
      length_append_header_le_iff]
    constructor
    · rintro ⟨⟨hproblems, hinside⟩, hd⟩
      rw [leaveBlock_of_not_inside hinside] at hd
      exact ⟨hproblems, fun _ => hinside, hd⟩
    · rintro ⟨hproblems, hinside, hd⟩
      have hinside' : o.block.isInside = false := hinside rfl
      rw [leaveBlock_of_not_inside hinside']
      exact ⟨⟨hproblems, hinside'⟩, hd⟩
  | openBlock row closes =>
    have hproblems : (o.openBlock number row closes).problems = [] ↔
        o.problems = [] ∧ o.block = .unopened := by
      unfold Outline.openBlock
      split <;> simp_all [report]
    rw [Outline.add, hproblems]
    exact ⟨fun h => ⟨h.1, fun _ => h.2, hold⟩, fun h => ⟨h.1, h.2.1 rfl⟩⟩
  | row row closes => exact ⟨fun h => ⟨h, fun hin => (by cases hin), hold⟩, fun h => h.1⟩
  | closeBlock => exact ⟨fun h => ⟨h, fun hin => (by cases hin), hold⟩, fun h => h.1⟩

/-- What the outline holds after a line that is admitted and no problem. -/
theorem records_add (hproblems : (o.add number line).problems = [])
    (hadmits : o.block.Admits line) :
    o.Records [(line, number)] (o.add number line) ∧
      (o.add number line).block = o.block.next number line := by
  cases line with
  | blank => exact ⟨⟨fun _ => (List.append_nil _).symm, (List.append_nil _).symm⟩, rfl⟩
  | header sec words =>
    obtain ⟨-, -, honce⟩ := add_problems_eq_nil_iff.1 hproblems
    rw [length_append_header_le_iff] at honce
    have hadd : o.add number (.header sec words) = o.setDeclaration ⟨words, number⟩ sec := by
      rw [Outline.add, leaveBlock_of_not_inside hadmits, declare_of_undeclared honce]
    refine ⟨⟨?_, ?_⟩, ?_⟩
    · intro sec'
      rw [hadd, declaration?_setDeclaration]
      by_cases hsec : sec = sec'
      · subst hsec
        simp [honce, declarationsIn]
      · simp [hsec, declarationsIn]
    · rw [hadd]
      cases sec <;> exact (List.append_nil _).symm
    · rw [hadd]
      cases sec <;> rfl
  | openBlock row closes =>
    have hblock : o.block = .unopened := hadmits
    have hadd : o.add number (.openBlock row closes) =
        { o with
          block := .resume closes number
          rows := row.toList.map (fun r => (r, number)) ++ o.rows } := by
      simp only [Outline.add, Outline.openBlock, hblock]
    rw [hadd]
    refine ⟨⟨fun sec => ?_, ?_⟩, rfl⟩
    · cases sec <;> exact (List.append_nil _).symm
    · cases row with
      | none => exact (List.append_nil _).symm
      | some row => simp [rowsIn, Line.row?]
  | row row closes =>
    refine ⟨⟨fun sec => ?_, ?_⟩, rfl⟩
    · cases sec <;> exact (List.append_nil _).symm
    · simp [Outline.add, addRow, rowsIn, Line.row?]
  | closeBlock =>
    refine ⟨⟨fun sec => ?_, ?_⟩, rfl⟩
    · cases sec <;> exact (List.append_nil _).symm
    · exact (List.append_nil _).symm

theorem takes_add (hproblems : (o.add number line).problems = []) (hadmits : o.block.Admits line) :
    o.Takes [line] (o.add number line) ∧ (o.add number line).block = o.block.next number line := by
  obtain ⟨hrecords, hblock⟩ := records_add hproblems hadmits
  exact ⟨hrecords.takes hproblems, hblock⟩

/-! ## Reading the lines -/

theorem readLine_of_spelledBy {chars : List Char} (hline : line.SpelledBy chars)
    (hadmits : o.block.Admits line) : o.readLine (chars, number) = o.add number line := by
  have hin : line.belongsInBlock = true → o.block.isInside = true := by
    intro hbelongs
    exact (Block.admits_iff_of_belongsInBlock hbelongs).1 hadmits
  unfold readLine
  rw [Line.ofChars_eq_ok_iff.2 ⟨hline, hin⟩]

/-- A line that is read without a problem is spelled and admitted. -/
theorem exists_of_readLine_problems {chars : List Char}
    (h : (o.readLine (chars, number)).problems = []) :
    ∃ line : Line, line.SpelledBy chars ∧ o.block.Admits line ∧
      (o.add number line).problems = [] := by
  unfold readLine at h
  split at h
  · next line hline =>
    obtain ⟨hspelled, hin⟩ := Line.ofChars_eq_ok_iff.1 hline
    refine ⟨line, hspelled, ?_, h⟩
    cases hbelongs : line.belongsInBlock with
    | false => exact (add_problems_eq_nil_iff.1 h).2.1 hbelongs
    | true => exact (Block.admits_iff_of_belongsInBlock hbelongs).2 (hin hbelongs)
  · simp [report] at h

/-- **Reading on without a problem** means that the lines are spelled and arranged as they have to
be from here on. -/
theorem exists_said_of_foldl {entries : List (List Char × Nat)}
    (h : (entries.foldl readLine o).problems = [])
    (hend : (entries.foldl readLine o).block.isInside = false) :
    o.problems = [] ∧ ∃ said : List Line,
      List.Forall₂ (fun entry line => Line.SpelledBy line entry.1) entries said ∧
        o.block.Awaits said ∧ o.Takes said (entries.foldl readLine o) := by
  induction entries generalizing o with
  | nil => exact ⟨h, [], .nil, Block.awaits_nil.2 hend, takes_nil h⟩
  | cons entry rest ih =>
    obtain ⟨chars, number⟩ := entry
    -- Problems stay, so if there is none in the end there was none after this line.
    obtain ⟨hproblems, said, hspelled, hawaits, htakes⟩ := ih h hend
    obtain ⟨line, hline, hadmits, hadd⟩ := exists_of_readLine_problems hproblems
    obtain ⟨htake, hblock⟩ := takes_add hadd hadmits
    rw [← readLine_of_spelledBy hline hadmits] at htake hblock
    refine ⟨(add_problems_eq_nil_iff.1 hadd).1, line :: said, .cons hline hspelled, ?_,
      htake.cons htakes⟩
    rw [Block.awaits_cons number, ← hblock]
    exact ⟨hadmits, hawaits⟩

/-- And lines that are spelled and arranged in this way are read without a problem, if no section
is declared twice. -/
theorem records_foldl {entries : List (List Char × Nat)} {said : List Line}
    (hspelled : List.Forall₂ (fun entry line => Line.SpelledBy line entry.1) entries said)
    (hproblems : o.problems = []) (hawaits : o.block.Awaits said)
    (honce : ∀ sec, (o.declaredWords sec ++ declared sec said).length ≤ 1) :
    o.Records (said.zip (entries.map Prod.snd)) (entries.foldl readLine o) ∧
      (entries.foldl readLine o).problems = [] ∧
      (entries.foldl readLine o).block.isInside = false := by
  induction hspelled generalizing o with
  | nil => exact ⟨records_nil o, hproblems, Block.awaits_nil.1 hawaits⟩
  | @cons entry line rest said hline _ ih =>
    obtain ⟨chars, number⟩ := entry
    obtain ⟨hadmits, hrest⟩ := (Block.awaits_cons number).1 hawaits
    have hadd : (o.add number line).problems = [] := by
      refine add_problems_eq_nil_iff.2 ⟨hproblems, fun _ => hadmits, ?_⟩
      intro sec
      have hsec := honce sec
      rw [declared_cons, ← List.append_assoc, List.length_append] at hsec
      omega
    obtain ⟨htake, hblock⟩ := takes_add hadd hadmits
    rw [← hblock] at hrest
    obtain ⟨hrecords, hend⟩ := ih hadd hrest (by
      intro sec
      rw [htake.declaredWords, List.append_assoc, ← declared_cons]
      exact honce sec)
    rw [List.foldl_cons, readLine_of_spelledBy hline hadmits]
    exact ⟨(records_add hadd hadmits).1.cons hrecords, hend⟩

theorem forall₂_zipIdx_iff {lines : List (List Char)} {said : List Line} {first : Nat} :
    List.Forall₂ (fun entry line => Line.SpelledBy line entry.1) (lines.zipIdx first) said ↔
      Says lines said := by
  rw [Says, ← List.forall₂_map_left_iff (f := Prod.fst)
    (R := fun chars line => Line.SpelledBy line chars), List.zipIdx_map_fst]

/-- **Lines without a problem** are spelled and arranged as they have to be, and the outline holds
what they say. -/
theorem exists_said_of_ofLines {lines : List (List Char)} (h : (ofLines lines).problems = []) :
    ∃ said : List Line, Says lines said ∧ Arranged said ∧
      ({} : Outline).Takes said (ofLines lines) := by
  obtain ⟨hproblems, hend⟩ := leaveBlock_problems_eq_nil_iff.1 h
  obtain ⟨-, said, hspelled, hawaits, htakes⟩ := exists_said_of_foldl hproblems hend
  refine ⟨said, forall₂_zipIdx_iff.1 hspelled, hawaits, ?_⟩
  rw [ofLines, leaveBlock_of_not_inside hend]
  exact htakes

theorem records_ofLines {lines : List (List Char)} {said : List Line}
    (hspelled : Says lines said) (harranged : Arranged said)
    (honce : ∀ sec, (declared sec said).length ≤ 1) :
    ({} : Outline).Records (said.zipIdx 1) (ofLines lines) ∧ (ofLines lines).problems = [] := by
  obtain ⟨hrecords, hnone, hend⟩ :=
    records_foldl (o := {}) (forall₂_zipIdx_iff.2 hspelled) rfl harranged (by
      intro sec
      rw [declaredWords_empty, List.nil_append]
      exact honce sec)
  rw [List.zipIdx_map_snd, hspelled.length_eq, ← List.zipIdx_eq_zip_range'] at hrecords
  rw [ofLines, leaveBlock_of_not_inside hend]
  exact ⟨hrecords, hnone⟩

/-- **Lines that are spelled and arranged in this way** are read without a problem, if no section is
declared twice. -/
theorem takes_ofLines {lines : List (List Char)} {said : List Line}
    (hspelled : Says lines said) (harranged : Arranged said)
    (honce : ∀ sec, (declared sec said).length ≤ 1) :
    ({} : Outline).Takes said (ofLines lines) := by
  obtain ⟨hrecords, hnone⟩ := records_ofLines hspelled harranged honce
  have htakes := hrecords.takes hnone
  rwa [List.zipIdx_map_fst] at htakes

end Outline

end PhraseStructure.Source
