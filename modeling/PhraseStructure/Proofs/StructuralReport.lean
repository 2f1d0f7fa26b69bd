import PhraseStructure.Proofs.Format

/-!
# What is reported about the sections of a text

A text whose lines are in order can still contradict itself: words that are no symbols, a start
symbol that is missing or no symbol, symbols that are used and not declared, too many left-hand
sides. These faults are listed here line by line, from what the lines say. The check collects them
section by section, and it stops at a start symbol that it cannot use. Up to there no fault hides
another one; the faults of the rows are all reported, or, after an unusable start symbol, none.

* `Outline.Holds.perm_declarationFaults`: faults listed by line and by section are the same.
* `structural_report`: which faults are reported.
-/

namespace PhraseStructure

/-- The section that declares a symbol. -/
def Symbol.home : Symbol → Source.Section
  | nonterminal _ => .nonterminals
  | terminal _ => .terminals

namespace Source

/-- Whether a word is a single symbol of the kind that the section declares. -/
def Section.admits : Section → List Char → Bool
  | terminals, [c] => c.isLower || c.isDigit
  | _, [c] => c.isUpper
  | _, _ => false

/-- Whether the section is declared, but without the symbol. -/
def isUndeclared (said : List Line) (sec : Section) (c : Char) : Bool :=
  (declared sec said).any fun words => !words.contains [c]

/-- The faults of the words of a `S =` line, which name a declared nonterminal and nothing else. -/
def startFaults (said : List Line) : List (List Char) → List Cause
  | [] => [.missingStartSymbol]
  | [[c]] =>
    if !c.isUpper then [.invalidSymbol (String.ofList [c])]
    else if isUndeclared said .nonterminals c then [.undeclaredStartSymbol c]
    else []
  | words => [.invalidSymbol (String.ofList ([' '].intercalate words))]

/-- The faults of the words that a section declares. -/
def wordFaults (said : List Line) (sec : Section) (words : List (List Char)) : List Cause :=
  if sec = .start then startFaults said words
  else (words.filter fun word => !sec.admits word).map fun word => .invalidSymbol (.ofList word)

/-- The undeclared symbols of a production. -/
def productionFaults (said : List Line) (p : Production) : List Cause :=
  (if isUndeclared said .nonterminals p.lhs then [.undeclaredNonterminal p.lhs] else []) ++
    (p.rhs.filter fun s => isUndeclared said s.home s.char).map fun s => .undeclaredSymbol s.char

namespace Line

/-- The faults of a line that declares a section. -/
def declarationFaults (said : List Line) : Line → List Cause
  | header sec words => wordFaults said sec words
  | _ => []

/-- The faults of a line that carries a row. -/
def rowFaults (said : List Line) (line : Line) : List Cause :=
  (line.row?.toList.flatMap Row.productions).flatMap (productionFaults said)

end Line

/-- The faults of lines numbered from one, each with its line. -/
def located (faults : Line → List Cause) (said : List Line) : List Problem :=
  (said.zipIdx 1).flatMap fun (line, number) => (faults line).map (.atLine number)

/-- What is wrong with the declarations of a text. -/
def declarationFaults (said : List Line) : List Problem :=
  located (Line.declarationFaults said) said ++
    if declared .start said = [] then [.whole .missingStartSymbol] else []

/-- The number of different left-hand sides. -/
def lhsCount (said : List Line) : Nat := ((rowsOf said).map Row.lhs).toFinset.card

/-- What is wrong with the rows of a text. -/
def rowFaults (maxRules : Nat) (said : List Line) : List Problem :=
  located (Line.rowFaults said) said ++
    if maxRules < lhsCount said then [.whole (.tooManyRules (lhsCount said) maxRules)] else []

/-- The structural faults of a text, of its declarations and of its rows. -/
def structuralFaults (maxRules : Nat) (said : List Line) : List Problem :=
  declarationFaults said ++ rowFaults maxRules said

/-- The text names a start symbol, declared or not. -/
def NamesStart (said : List Line) : Prop :=
  ∃ c, c.isUpper = true ∧ [[c]] ∈ declared .start said

/-! ## Declarations, by line and by section -/

theorem declarationsIn_header (sec sec' : Section) (words : List (List Char)) (number : Nat) :
    declarationsIn sec [(.header sec' words, number)] =
      if sec' = sec then [⟨words, number⟩] else [] := by
  by_cases hsec : sec' = sec <;> simp [declarationsIn, hsec]

/-- Going through the lines meets the same declarations as going through the sections. -/
theorem perm_declarations (faults : Section → Declaration → List Problem)
    (entries : List (Line × Nat)) :
    (entries.flatMap fun
      | (.header sec words, number) => faults sec ⟨words, number⟩
      | _ => []).Perm
      ((declarationsIn .nonterminals entries).flatMap (faults .nonterminals) ++
        (declarationsIn .terminals entries).flatMap (faults .terminals) ++
        (declarationsIn .start entries).flatMap (faults .start)) := by
  induction entries with
  | nil => exact .refl _
  | cons entry rest ih =>
    rw [List.perm_iff_count] at ih ⊢
    intro problem
    have hrest := ih problem
    obtain ⟨line, number⟩ := entry
    simp only [List.flatMap_cons, List.count_append, declarationsIn_cons _ _ rest,
      List.flatMap_append] at hrest ⊢
    cases line with
    | header sec words =>
      cases sec <;> simp only [declarationsIn_header, reduceCtorEq, if_true, if_false,
        List.flatMap_singleton, List.flatMap_nil, List.count_nil] <;> omega
    | _ => simpa [declarationsIn] using hrest

/-- The faults of a declaration, with its line. -/
def faultsAt (said : List Line) (sec : Section) (d : Declaration) : List Problem :=
  (wordFaults said sec d.words).map (.atLine d.line)

theorem located_declarationFaults (said : List Line) :
    located (Line.declarationFaults said) said = (said.zipIdx 1).flatMap fun
      | (.header sec words, number) => faultsAt said sec ⟨words, number⟩
      | _ => [] := by
  refine List.flatMap_congr ?_
  rintro ⟨line, number⟩ -
  cases line <;> rfl

/-! ## The words of a section -/

theorem admits_nonterminals_iff {word : List Char} :
    Section.nonterminals.admits word = true ↔
      ∃ c, word = [c] ∧ ∃ s, Symbol.ofChar? c = some s ∧ s.isNonterminal = true := by
  simp only [Symbol.exists_isNonterminal_iff]
  unfold Section.admits
  split <;> simp_all

theorem admits_terminals_iff {word : List Char} :
    Section.terminals.admits word = true ↔
      ∃ c, word = [c] ∧ ∃ s, Symbol.ofChar? c = some s ∧ s.isTerminal = true := by
  simp only [Symbol.exists_isTerminal_iff]
  unfold Section.admits
  split <;> simp_all

theorem Declaration.badWords_eq_faultsAt {wanted : Symbol → Bool} {sec : Section}
    (hsec : sec ≠ .start) (hwanted : ∀ {word}, sec.admits word = true ↔
      ∃ c, word = [c] ∧ ∃ s, Symbol.ofChar? c = some s ∧ wanted s = true)
    (said : List Line) (d : Declaration) : d.badWords wanted = faultsAt said sec d := by
  have hnone : ∀ word, (declaredChar? wanted word).isNone = !sec.admits word := by
    intro word
    have hsome : (declaredChar? wanted word).isSome = sec.admits word := by
      rw [Bool.eq_iff_iff, hwanted, Option.isSome_iff_exists]
      simp only [declaredChar?_eq_some_iff]
    rw [← hsome, Option.not_isSome]
  rw [badWords, faultsAt, wordFaults, if_neg hsec, List.map_map]
  simp only [hnone]
  rfl

theorem getD_map_eq_flatMap {α β : Type} (f : α → List β) (x : Option α) :
    (x.map f).getD [] = x.toList.flatMap f := by
  cases x <;> simp

/-- A symbol is missing from a declared set exactly if it is no word of the declaration: words that
are no symbols are left out of the set, and the symbol is none of these. -/
theorem lacks_eq_isUndeclared {said : List Line} {sec : Section} {d : Option Declaration}
    (hd : declared sec said = (d.map Declaration.words).toList) {wanted : Symbol → Bool} {c : Char}
    (hc : ∃ s, Symbol.ofChar? c = some s ∧ wanted s = true) :
    lacks (d.map fun d => d.alphabet wanted) c = isUndeclared said sec c := by
  have hfalse : isUndeclared said sec c = false ↔ ∀ ws ∈ declared sec said, [c] ∈ ws := by
    simp [isUndeclared]
  rw [hd, ← lacks_eq_false_iff hc] at hfalse
  cases hlacks : lacks (d.map fun d => d.alphabet wanted) c with
  | false => exact (hfalse.2 hlacks).symm
  | true =>
    by_contra hne
    rw [hfalse.1 (by simpa using Ne.symm hne)] at hlacks
    cases hlacks

/-- An unusable start symbol is a fault of its line, or of the text if there is no such line. -/
theorem faults_of_startSymbol_error {said : List Line} {d : Option Declaration} {problem : Problem}
    (h : startSymbol d = .error problem) :
    (d.toList.flatMap (faultsAt said .start) ++
      if d = none then [.whole .missingStartSymbol] else []) = [problem] := by
  unfold startSymbol at h
  split at h
  · obtain rfl := Except.error.inj h
    rfl
  · obtain rfl := Except.error.inj h
    rfl
  · next c line =>
    split at h
    · cases h
    · next hc =>
      obtain rfl := Except.error.inj h
      simp [faultsAt, wordFaults, startFaults, hc]
  · next words line hnil hsingle =>
    obtain rfl := Except.error.inj h
    simp [faultsAt, wordFaults, startFaults]

theorem faultsAt_start {said : List Line} {c : Char} (hc : c.isUpper = true) (line : Nat) :
    faultsAt said .start ⟨[[c]], line⟩ =
      if isUndeclared said .nonterminals c then [.atLine line (.undeclaredStartSymbol c)]
      else [] := by
  simp only [faultsAt, wordFaults, startFaults, hc, if_true, Bool.not_true, Bool.false_eq_true,
    if_false]
  split <;> rfl

/-! ## What the outline of a text reports -/

namespace Outline

variable {o : Outline} {said : List Line} {maxRules : Nat}

/-- The outline holds the numbered lines of a text. -/
abbrev Holds (o : Outline) (said : List Line) : Prop := ({} : Outline).Records (said.zipIdx 1) o

theorem Holds.declarationsIn_eq (h : o.Holds said) (sec : Section) :
    declarationsIn sec (said.zipIdx 1) = (o.declaration? sec).toList := by
  rw [Records.declarations h]
  cases sec <;> rfl

theorem Holds.declared_eq (h : o.Holds said) (sec : Section) :
    declared sec said = ((o.declaration? sec).map Declaration.words).toList := by
  have hwords := map_words_declarationsIn sec (said.zipIdx 1)
  rw [List.zipIdx_map_fst, h.declarationsIn_eq] at hwords
  rw [← hwords, ← declaredWords_eq]
  rfl

theorem Holds.reverse_rows (h : o.Holds said) : o.rows.reverse = rowsIn (said.zipIdx 1) :=
  Records.rows h

theorem Holds.badWords_eq (h : o.Holds said) :
    o.badWords =
      (declarationsIn .nonterminals (said.zipIdx 1)).flatMap (faultsAt said .nonterminals) ++
        (declarationsIn .terminals (said.zipIdx 1)).flatMap (faultsAt said .terminals) := by
  rw [badWords, getD_map_eq_flatMap, getD_map_eq_flatMap, h.declarationsIn_eq, h.declarationsIn_eq]
  simp only [Declaration.badWords_eq_faultsAt (by decide) admits_nonterminals_iff said,
    Declaration.badWords_eq_faultsAt (by decide) admits_terminals_iff said]
  rfl

theorem Holds.undeclaredIn_eq (h : o.Holds said) {p : Production} (hlhs : p.lhs.isUpper = true)
    (hrhs : ∀ s ∈ p.rhs, s.Proper) (number : Nat) :
    undeclaredIn o.declaredNonterminals o.declaredTerminals (p, number) =
      (productionFaults said p).map (.atLine number) := by
  have hleft : lacks o.declaredNonterminals p.lhs = isUndeclared said .nonterminals p.lhs :=
    lacks_eq_isUndeclared (h.declared_eq .nonterminals) (Symbol.exists_isNonterminal_iff.2 hlhs)
  have hnonterminal : ∀ c, .nonterminal c ∈ p.rhs →
      lacks o.declaredNonterminals c = isUndeclared said .nonterminals c := by
    intro c hc
    exact lacks_eq_isUndeclared (h.declared_eq .nonterminals) ⟨_, hrhs _ hc, rfl⟩
  have hterminal : ∀ c, .terminal c ∈ p.rhs →
      lacks o.declaredTerminals c = isUndeclared said .terminals c := by
    intro c hc
    exact lacks_eq_isUndeclared (h.declared_eq .terminals) ⟨_, hrhs _ hc, rfl⟩
  simp only [undeclaredIn, productionFaults, List.map_append, hleft]
  congr 1
  · split <;> rfl
  · rw [List.map_map, ← List.filterMap_eq_map, List.filterMap_filter]
    refine List.filterMap_congr ?_
    intro s hs
    cases s with
    | nonterminal c =>
      simp only [Symbol.char, Symbol.home, hnonterminal c hs]
      rfl
    | terminal c =>
      simp only [Symbol.char, Symbol.home, hterminal c hs]
      rfl

/-- The undeclared symbols of the rows, found by going through their productions. -/
theorem Holds.undeclared_eq (h : o.Holds said) (hproper : ∀ row ∈ rowsOf said, row.Proper) :
    o.productions.flatMap (undeclaredIn o.declaredNonterminals o.declaredTerminals) =
      located (Line.rowFaults said) said := by
  rw [Outline.productions, h.reverse_rows, rowsIn, List.filterMap_eq_flatMap_toList,
    List.flatMap_assoc, List.flatMap_assoc]
  refine List.flatMap_congr ?_
  rintro ⟨line, number⟩ hentry
  cases hrow : line.row? with
  | none => simp [Line.rowFaults, hrow]
  | some row =>
    have hline : line ∈ said := List.fst_mem_of_mem_zipIdx hentry
    obtain ⟨hlhs, hforms⟩ := hproper row (List.mem_filterMap.2 ⟨line, hline, hrow⟩)
    simp only [Line.rowFaults, hrow, Option.map_some, Option.toList_some, List.flatMap_singleton,
      List.map_flatMap, Row.productions, List.flatMap_map]
    refine List.flatMap_congr ?_
    intro rhs hrhs
    exact h.undeclaredIn_eq hlhs (hforms rhs hrhs) number

theorem Holds.rowFaults_eq (h : o.Holds said) (hproper : ∀ row ∈ rowsOf said, row.Proper)
    (hne : ∀ row ∈ rowsOf said, row.alternatives ≠ []) :
    (o.productions.flatMap (undeclaredIn o.declaredNonterminals o.declaredTerminals) ++
      let count := rowCount (o.productions.map Prod.fst)
      if maxRules < count then [.whole (.tooManyRules count maxRules)] else []) =
      rowFaults maxRules said := by
  have hrows : o.rowsRead = rowsOf said := by
    have hfst := map_fst_rowsIn (said.zipIdx 1)
    rwa [List.zipIdx_map_fst, ← h.reverse_rows] at hfst
  have hcount : rowCount (o.productions.map Prod.fst) = lhsCount said := by
    rw [map_fst_productions, hrows, rowCount_eq hne]
    rfl
  rw [h.undeclared_eq hproper, hcount]
  rfl

theorem Holds.namesStart_iff (h : o.Holds said) :
    NamesStart said ↔ ∃ c line, startSymbol o.start = .ok (c, line) := by
  have hstart : declared .start said = (o.start.map Declaration.words).toList :=
    h.declared_eq .start
  simp only [NamesStart, hstart, startSymbol_eq_ok_iff, Option.mem_toList, Option.map_eq_some_iff]
  constructor
  · rintro ⟨c, hc, ⟨words, line⟩, hd, rfl⟩
    exact ⟨c, line, hd, hc⟩
  · rintro ⟨c, line, hd, hc⟩
    exact ⟨c, hc, _, hd, rfl⟩

/-- **Listed by line and by section the faults of declarations are the same.** -/
theorem Holds.perm_declarationFaults (h : o.Holds said) :
    (declarationFaults said).Perm (o.badWords ++ (o.start.toList.flatMap (faultsAt said .start) ++
      if o.start = none then [.whole .missingStartSymbol] else [])) := by
  have hlines := perm_declarations (faultsAt said) (said.zipIdx 1)
  rw [← located_declarationFaults, ← h.badWords_eq, h.declarationsIn_eq .start] at hlines
  have hmissing : declared .start said = [] ↔ o.start = none := by
    rw [h.declared_eq .start]
    simp [declaration?]
  simp only [declarationFaults, hmissing, ← List.append_assoc]
  exact hlines.append_right _

/-- **With a usable start symbol** all faults are reported. -/
theorem Holds.perm_problemsWith (h : o.Holds said) (hproper : ∀ row ∈ rowsOf said, row.Proper)
    (hne : ∀ row ∈ rowsOf said, row.alternatives ≠ []) {start : Char} {line : Nat}
    (hstart : startSymbol o.start = .ok (start, line)) :
    (o.problemsWith maxRules start line).Perm (structuralFaults maxRules said) := by
  obtain ⟨hd, hupper⟩ := startSymbol_eq_ok_iff.1 hstart
  have hlacks : lacks o.declaredNonterminals start = isUndeclared said .nonterminals start :=
    lacks_eq_isUndeclared (h.declared_eq .nonterminals) (Symbol.exists_isNonterminal_iff.2 hupper)
  have hdeclarations := h.perm_declarationFaults
  rw [hd, Option.toList_some, List.flatMap_singleton, faultsAt_start hupper,
    if_neg (Option.some_ne_none _), List.append_nil, ← hlacks] at hdeclarations
  rw [structuralFaults, ← h.rowFaults_eq hproper hne, problemsWith, List.append_assoc]
  exact hdeclarations.symm.append_right _

/-- **A text that is refused** is refused for all its faults if the start symbol is usable, and
for those of its declarations otherwise. -/
theorem Holds.check_error (h : o.Holds said) (hproper : ∀ row ∈ rowsOf said, row.Proper)
    (hne : ∀ row ∈ rowsOf said, row.alternatives ≠ []) {problems : List Problem}
    (hcheck : o.check maxRules = .error problems) :
    (NamesStart said ∧ problems.Perm (structuralFaults maxRules said)) ∨
      (¬ NamesStart said ∧ problems.Perm (declarationFaults said)) := by
  rw [h.namesStart_iff]
  unfold check at hcheck
  split at hcheck
  · next problem hstart =>
    obtain rfl := Except.error.inj hcheck
    right
    constructor
    · rintro ⟨c, line, hok⟩
      rw [hstart] at hok
      cases hok
    · have hdeclarations := h.perm_declarationFaults
      rw [faults_of_startSymbol_error hstart] at hdeclarations
      exact hdeclarations.symm
  · next start line hstart =>
    left
    refine ⟨⟨start, line, hstart⟩, ?_⟩
    split at hcheck
    · cases hcheck
    · obtain rfl := Except.error.inj hcheck
      exact h.perm_problemsWith hproper hne hstart

end Outline

/-- What lines say can be computed, each line being read as if inside the block. -/
theorem says_iff_map {lines : List (List Char)} {said : List Line} :
    Says lines said ↔ lines.map (Line.ofChars true) = said.map .ok := by
  rw [← List.forall₂_eq_eq_eq, List.forall₂_map_left_iff, List.forall₂_map_right_iff, Says]
  simp only [Line.ofChars_eq_ok_iff, implies_true, and_true]

/-- **Which structural faults are reported.** A text whose lines are in order is refused for exactly
its structural faults, each as often as it occurs, if it names a start symbol. If it does not, only
the faults of its declarations are reported, and the report is complete just if there are no
others. -/
theorem structural_report {maxRules : Nat} {text : String} {said : List Line}
    (hlines : Says (Text.lines text.toList) said) (harranged : Arranged said)
    (honce : ∀ sec, (declared sec said).length ≤ 1) {problems : List Problem}
    (hread : read maxRules text = .error problems) :
    (NamesStart said → problems.Perm (structuralFaults maxRules said)) ∧
      (¬ NamesStart said → problems.Perm (declarationFaults said)) ∧
      (problems.Perm (structuralFaults maxRules said) ↔
        NamesStart said ∨ rowFaults maxRules said = []) := by
  obtain ⟨hholds, hnone⟩ := Outline.records_ofLines hlines harranged honce
  have hcheck : (Outline.ofLines (Text.lines text.toList)).check maxRules = .error problems := by
    unfold read Outline.toGrammar Outline.ofChars at hread
    simpa only [hnone] using hread
  rcases Outline.Holds.check_error hholds hlines.proper hlines.alternatives_ne_nil hcheck with
    ⟨hstart, hall⟩ | ⟨hstart, hsome⟩
  · exact ⟨fun _ => hall, fun hne => absurd hstart hne, fun _ => .inl hstart, fun _ => hall⟩
  · refine ⟨fun hnames => absurd hnames hstart, fun _ => hsome, ?_, ?_⟩
    · intro hall
      -- Both lists are as long as the report, so the rows add nothing.
      have hlength := (hsome.symm.trans hall).length_eq
      rw [structuralFaults, List.length_append] at hlength
      exact .inr (List.length_eq_zero_iff.1 (by omega))
    · rintro (hnames | hrows)
      · exact absurd hnames hstart
      · rw [structuralFaults, hrows, List.append_nil]
        exact hsome

/-- A text with faults of all kinds, whose start symbol is a capital that is not declared. -/
def crossedText : String :=
  "N = S ab\nT = a, B\nS = C\nP = \x7b\nS -> aC | b\nA -> a\n\x7d"

/-- The lines of this text. -/
def crossedLines : List Line :=
  [.header .nonterminals [['S'], ['a', 'b']], .header .terminals [['a'], ['B']],
    .header .start [['C']], .openBlock none false,
    .row ⟨'S', [[.terminal 'a', .nonterminal 'C'], [.terminal 'b']]⟩ false,
    .row ⟨'A', [[.terminal 'a']]⟩ false, .closeBlock]

/-- Its faults are reported together, each at its line. -/
theorem structural_report_crossed :
    ∃ problems, read 1 crossedText = .error problems ∧
      problems.Perm (structuralFaults 1 crossedLines) ∧
      structuralFaults 1 crossedLines =
        [.atLine 1 (.invalidSymbol "ab"), .atLine 2 (.invalidSymbol "B"),
          .atLine 3 (.undeclaredStartSymbol 'C'), .atLine 5 (.undeclaredSymbol 'C'),
          .atLine 5 (.undeclaredSymbol 'b'), .atLine 6 (.undeclaredNonterminal 'A'),
          .whole (.tooManyRules 2 1)] := by
  have hlines : Says (Text.lines crossedText.toList) crossedLines := says_iff_map.2 rfl
  have harranged : Arranged crossedLines := by
    refine ⟨crossedLines.take 3, crossedLines.drop 3, [], by simp, ?_, .inr (.inr ?_)⟩
    · simp [crossedLines, Line.IsOuter]
    · exact ⟨none, (crossedLines.drop 4).take 2, .closeBlock, rfl,
        by simp [crossedLines, Line.IsInner], trivial⟩
  have honce : ∀ sec, (declared sec crossedLines).length ≤ 1 := by
    intro sec
    cases sec <;> decide
  have hstart : NamesStart crossedLines := ⟨'C', by decide, by decide⟩
  obtain ⟨problems, hread⟩ : ∃ problems, read 1 crossedText = .error problems := ⟨_, rfl⟩
  exact ⟨problems, hread, (structural_report hlines harranged honce hread).1 hstart, by decide⟩

/-- A text without a start symbol. -/
def startlessText : String := "N = S\nT = a\nP = \x7b\nA -> b\nS -> a\n\x7d"

/-- The lines of this text. -/
def startlessLines : List Line :=
  [.header .nonterminals [['S']], .header .terminals [['a']], .openBlock none false,
    .row ⟨'A', [[.terminal 'b']]⟩ false, .row ⟨'S', [[.terminal 'a']]⟩ false, .closeBlock]

/-- That it has no start symbol is all that is reported. The undeclared symbols of its first row and
its surplus row are not. -/
theorem row_faults_unreported :
    Says (Text.lines startlessText.toList) startlessLines ∧ Arranged startlessLines ∧
      (∀ sec, (declared sec startlessLines).length ≤ 1) ∧
      read 1 startlessText = .error [.whole .missingStartSymbol] ∧
      structuralFaults 1 startlessLines =
        [.whole .missingStartSymbol, .atLine 4 (.undeclaredNonterminal 'A'),
          .atLine 4 (.undeclaredSymbol 'b'), .whole (.tooManyRules 2 1)] ∧
      ¬ [Located.whole Cause.missingStartSymbol].Perm (structuralFaults 1 startlessLines) := by
  refine ⟨says_iff_map.2 rfl, ?_, ?_, rfl, by decide, ?_⟩
  · refine ⟨startlessLines.take 2, startlessLines.drop 2, [], by simp, ?_, .inr (.inr ?_)⟩
    · simp [startlessLines, Line.IsOuter]
    · exact ⟨none, (startlessLines.drop 3).take 2, .closeBlock, rfl,
        by simp [startlessLines, Line.IsInner], trivial⟩
  · intro sec
    cases sec <;> decide
  · intro hperm
    have hlength : 1 = (structuralFaults 1 startlessLines).length := hperm.length_eq
    exact absurd hlength (by decide)

end Source

end PhraseStructure
