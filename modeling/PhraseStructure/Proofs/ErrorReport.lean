import PhraseStructure.Proofs.BlockReports
import PhraseStructure.Proofs.Scanning
import PhraseStructure.Proofs.StructuralReport

/-!
# What a report of problems looks like

A text is refused with the problems of its lines or, if there are none, with those of its sections,
and they are shown with one problem to a line. Words of the text are copied into what is shown.
They come from tokens, and in no token there is a line feed, so they cannot look like a problem of
their own. Each line adds at most one problem that is placed at the line itself. The only problem
that is placed elsewhere is that a block is left open, and this is at the line which opened it. So
the other problems are in the order of the lines, and a malformed line has exactly one.

* `Cause.IsPlain.oneLine_message`, `Line.plain_ofChars`: no line feed gets into what is shown.
* `Outline.isPlaced_of_mem_ofLines`, `isPlaced_of_mem_check`: problems are at lines of the text.
* `Outline.addsAt_readLine`, `Outline.pairwise_ownProblems_after`: what one line adds, and the order
  after all of them.
* `error_report_faithful`: what holds of every report.
-/

namespace PhraseStructure

/-- The number of the line. What concerns the grammar as a whole is before all lines. -/
def Place.number : Place → Nat
  | grammar => 0
  | line number => number

namespace Source

/-! ## Words for problems -/

/-- The text has no line feed. -/
def OneLine (text : String) : Prop := '\n' ∉ text.toList

instance (text : String) : Decidable (OneLine text) := inferInstanceAs (Decidable (_ ∉ _))

theorem oneLine_append {text text' : String} :
    OneLine (text ++ text') ↔ OneLine text ∧ OneLine text' := by
  rw [OneLine, String.toList_append, List.mem_append, not_or]
  rfl

theorem oneLine_ofList {cs : List Char} (h : '\n' ∉ cs) : OneLine (String.ofList cs) := by
  rwa [OneLine, String.toList_ofList]

theorem oneLine_toString_char {c : Char} (h : c ≠ '\n') : OneLine c.toString := by
  have hlist : c.toString.toList = [c] := by simp
  rw [OneLine, hlist, List.mem_singleton]
  exact fun heq => h heq.symm

theorem oneLine_toString_nat (n : Nat) : OneLine (toString n) := by
  have hlist : (toString n).toList = Nat.toDigits 10 n := by simp
  rw [OneLine, hlist]
  intro hmem
  exact absurd (Nat.isDigit_of_mem_toDigits (by omega) (by omega) hmem) (by decide)

theorem ne_newline_of_isLetter {c : Char} (h : Token.isLetter c = true) : c ≠ '\n' := by
  rintro rfl
  exact absurd h (by decide)

theorem notMem_of_isLetter {cs : List Char} (h : ∀ c ∈ cs, Token.isLetter c = true) :
    '\n' ∉ cs := fun hmem => ne_newline_of_isLetter (h _ hmem) rfl

/-- What a cause takes from the text has no line feed. -/
def Cause.IsPlain : Cause → Prop
  | undeclaredStartSymbol c => c ≠ '\n'
  | invalidSymbol word => OneLine word
  | undeclaredNonterminal c => c ≠ '\n'
  | undeclaredSymbol c => c ≠ '\n'
  | multiSymbolLeftHandSide word => OneLine word
  | duplicateSection letter => letter ≠ '\n'
  | unexpectedToken token => OneLine token
  | _ => True

/-- The words for a cause add none. -/
theorem Cause.IsPlain.oneLine_message {cause : Cause} (h : cause.IsPlain) :
    OneLine cause.message := by
  have hbetween : ∀ {before text after : String}, OneLine before → OneLine text → OneLine after →
      OneLine (before ++ text ++ after) := by
    intro before text after hbefore htext hafter
    exact oneLine_append.2 ⟨oneLine_append.2 ⟨hbefore, htext⟩, hafter⟩
  cases cause with
  | undeclaredStartSymbol c => exact hbetween (by decide) (oneLine_toString_char h) (by decide)
  | invalidSymbol word => exact hbetween (oneLine_append.2 ⟨by decide, h⟩) (by decide) (by decide)
  | undeclaredNonterminal c => exact hbetween (by decide) (oneLine_toString_char h) (by decide)
  | undeclaredSymbol c => exact hbetween (by decide) (oneLine_toString_char h) (by decide)
  | tooManyRules count max =>
    exact hbetween (hbetween (by decide) (oneLine_toString_nat count) (by decide))
      (oneLine_toString_nat max) (by decide)
  | multiSymbolLeftHandSide word => exact hbetween (by decide) h (by decide)
  | duplicateSection letter => exact hbetween (by decide) (oneLine_toString_char h) (by decide)
  | unexpectedToken token => exact hbetween (by decide) h (by decide)
  | _ => decide

theorem notMem_render_of_plain {p : Problem} (h : p.cause.IsPlain) : '\n' ∉ p.render.toList := by
  have hplace : OneLine p.place.render := by
    cases p.place with
    | grammar => decide
    | line number => exact oneLine_append.2 ⟨by decide, oneLine_toString_nat number⟩
  have hlabel : OneLine ("[" ++ p.place.render ++ "] ") :=
    oneLine_append.2 ⟨oneLine_append.2 ⟨by decide, hplace⟩, by decide⟩
  exact oneLine_append.2 ⟨hlabel, h.oneLine_message⟩

/-! ## Problems of lines -/

theorem permits_plain {chars : List Char} {tokens : List Token}
    (h : Token.scan chars = .ok tokens) : Permits Cause.IsPlain tokens := by
  have hword : ∀ letters, .word letters ∈ tokens → '\n' ∉ letters := fun letters hword =>
    notMem_of_isLetter (Token.isLetter_of_mem_scan h hword)
  constructor
  case symbol =>
    intro letters hletters c hc
    refine oneLine_toString_char ?_
    rintro rfl
    exact hword letters hletters hc
  case side => exact fun letters hletters => oneLine_ofList (hword letters hletters)
  case token =>
    intro token htoken
    cases token with
    | word letters => exact oneLine_ofList (hword letters htoken)
    | _ => exact oneLine_ofList (by decide)
  case ending => exact show OneLine _ by decide
  case arrow => trivial
  case left => trivial

/-- **No line feed gets into the report of a line.** -/
theorem Line.plain_ofChars (inBlock : Bool) (chars : List Char) :
    FailsFor Cause.IsPlain (ofChars inBlock chars) :=
  failsFor_of_permits (show OneLine _ by decide) (fun _ => permits_plain) fun _ =>
    ⟨trivial, trivial⟩

/-- The problem is at a line of a text with `n` lines, or is one of the two that concern the grammar
as a whole. -/
def IsPlaced (n : Nat) (p : Problem) : Prop :=
  (p.place = .grammar ∧
      (p.cause = .missingStartSymbol ∨ ∃ count max, p.cause = .tooManyRules count max)) ∨
    ∃ m, p.place = .line m ∧ 1 ≤ m ∧ m ≤ n

theorem isPlaced_atLine {n m : Nat} (h : 1 ≤ m ∧ m ≤ n) (cause : Cause) :
    IsPlaced n (.atLine m cause) := .inr ⟨m, rfl, h⟩

namespace Outline

variable {lines : List (List Char)} {p : Problem}

/-- **Problems of lines are at lines of the text,** and no line feed gets into them. -/
theorem isPlaced_of_mem_ofLines (h : p ∈ (ofLines lines).problems) :
    p.cause.IsPlain ∧ IsPlaced lines.length p := by
  -- A block that is left is reported where a line of the text opened it.
  have hopened : ∀ {k openedAt : Nat}, k ≤ lines.length →
      (after lines k).block = .inside openedAt → 1 ≤ openedAt ∧ openedAt ≤ lines.length := by
    intro k openedAt hk hblock
    exact le_length_of_reads rfl ((block_after_eq_inside_iff hk).1 hblock).2.1
  rcases mem_problems_ofLines.1 h with ⟨k, hk, hraises⟩ | ⟨openedAt, hblock, rfl⟩
  · generalize hline : readAt lines k = line at hraises
    have hnumber : 1 ≤ k + 1 ∧ k + 1 ≤ lines.length := ⟨by omega, hk⟩
    cases hraises with
    | malformed => exact ⟨Line.plain_ofChars _ _ _ hline, isPlaced_atLine hnumber _⟩
    | @redeclared sec words _ =>
      have hletter : sec.letter ≠ '\n' := by cases sec <;> decide
      exact ⟨hletter, isPlaced_atLine hnumber _⟩
    | reopened _ => exact ⟨show blockLetter ≠ '\n' by decide, isPlaced_atLine hnumber _⟩
    | left hblock => exact ⟨trivial, isPlaced_atLine (hopened (Nat.le_of_lt hk) hblock) _⟩
  · exact ⟨trivial, isPlaced_atLine (hopened (Nat.le_refl _) hblock) _⟩

end Outline

/-! ## Problems of sections -/

theorem notMem_of_header {sec : Section} {words : List (List Char)} {chars : List Char}
    (h : (Line.header sec words).SpelledBy chars) : ∀ w ∈ words, '\n' ∉ w := by
  intro w hw
  obtain ⟨tokens, hscan, hspelled⟩ := h
  cases hspelled
  have htoken : Token.word w ∈ words.map Token.word := List.mem_map_of_mem hw
  exact notMem_of_isLetter (Token.isLetter_of_mem_scan hscan
    (List.mem_cons_of_mem _ (List.mem_cons_of_mem _ htoken)))

section Sections

variable {lines : List (List Char)} {said : List Line} {p : Problem} {cause : Cause}

theorem plain_of_startFaults {words : List (List Char)} (hwords : ∀ w ∈ words, '\n' ∉ w)
    (h : cause ∈ startFaults said words) : cause.IsPlain := by
  unfold startFaults at h
  split at h
  · obtain rfl := List.mem_singleton.1 h
    trivial
  · next c =>
    have hc := hwords [c] List.mem_cons_self
    split at h
    · obtain rfl := List.mem_singleton.1 h
      exact oneLine_ofList hc
    · split at h
      · obtain rfl := List.mem_singleton.1 h
        exact fun heq => hc (heq ▸ List.mem_cons_self)
      · cases h
  · obtain rfl := List.mem_singleton.1 h
    refine oneLine_ofList fun hmem => ?_
    rcases mem_intercalate hmem with hmem | ⟨w, hw, hmem⟩
    · exact absurd hmem (by decide)
    · exact hwords w hw hmem

theorem Line.plain_declarationFaults {line : Line} {chars : List Char} (hline : line.SpelledBy chars)
    (h : cause ∈ line.declarationFaults said) : cause.IsPlain := by
  cases line with
  | header sec words =>
    have hwords := notMem_of_header hline
    change cause ∈ wordFaults said sec words at h
    unfold wordFaults at h
    split at h
    · exact plain_of_startFaults hwords h
    · obtain ⟨word, hword, rfl⟩ := List.mem_map.1 h
      exact oneLine_ofList (hwords word (List.mem_of_mem_filter hword))
  | _ => cases h

theorem Line.plain_rowFaults {line : Line} (hproper : ∀ row ∈ line.row?, row.Proper)
    (h : cause ∈ line.rowFaults said) : cause.IsPlain := by
  obtain ⟨production, hproduction, h⟩ := List.mem_flatMap.1 h
  obtain ⟨row, hrow, hproduction⟩ := List.mem_flatMap.1 hproduction
  obtain ⟨form, hform, rfl⟩ := List.mem_map.1 hproduction
  obtain ⟨hlhs, hforms⟩ := hproper row (Option.mem_toList.1 hrow)
  rcases List.mem_append.1 h with h | h
  · split at h
    · obtain rfl := List.mem_singleton.1 h
      show row.lhs ≠ '\n'
      intro heq
      rw [heq] at hlhs
      exact absurd hlhs (by decide)
    · cases h
  · obtain ⟨s, hs, rfl⟩ := List.mem_map.1 h
    have hs : Symbol.ofChar? s.char = some s := hforms form hform s (List.mem_of_mem_filter hs)
    show s.char ≠ '\n'
    intro heq
    rw [heq] at hs
    cases hs

theorem mem_located {faults : Line → List Cause} (h : p ∈ located faults said) :
    (∃ line ∈ said, p.cause ∈ faults line) ∧ IsPlaced said.length p := by
  obtain ⟨⟨line, number⟩, hentry, hp⟩ := List.mem_flatMap.1 h
  obtain ⟨cause, hcause, rfl⟩ := List.mem_map.1 hp
  have hlt : number < 1 + said.length := List.snd_lt_add_of_mem_zipIdx hentry
  exact ⟨⟨line, List.fst_mem_of_mem_zipIdx hentry, hcause⟩,
    isPlaced_atLine ⟨List.le_snd_of_mem_zipIdx hentry, by omega⟩ _⟩

theorem Says.exists_chars (h : Says lines said) {line : Line} (hline : line ∈ said) :
    ∃ chars, line.SpelledBy chars := by
  have hmem : .ok line ∈ lines.map (Line.ofChars true) :=
    says_iff_map.1 h ▸ List.mem_map_of_mem hline
  obtain ⟨chars, -, hchars⟩ := List.mem_map.1 hmem
  exact ⟨chars, (Line.ofChars_eq_ok_iff.1 hchars).1⟩

theorem isPlaced_of_mem_structuralFaults {maxRules : Nat} (hlines : Says lines said)
    (h : p ∈ structuralFaults maxRules said) : p.cause.IsPlain ∧ IsPlaced lines.length p := by
  rw [hlines.length_eq]
  rcases List.mem_append.1 h with h | h
  · rcases List.mem_append.1 h with h | h
    · obtain ⟨⟨line, hline, hcause⟩, hplaced⟩ := mem_located h
      obtain ⟨chars, hspelled⟩ := hlines.exists_chars hline
      exact ⟨Line.plain_declarationFaults hspelled hcause, hplaced⟩
    · split at h
      · obtain rfl := List.mem_singleton.1 h
        exact ⟨trivial, .inl ⟨rfl, .inl rfl⟩⟩
      · cases h
  · rcases List.mem_append.1 h with h | h
    · obtain ⟨⟨line, hline, hcause⟩, hplaced⟩ := mem_located h
      refine ⟨Line.plain_rowFaults ?_ hcause, hplaced⟩
      exact fun row hrow => hlines.proper row (List.mem_filterMap.2 ⟨line, hline, hrow⟩)
    · split at h
      · obtain rfl := List.mem_singleton.1 h
        exact ⟨trivial, .inl ⟨rfl, .inr ⟨_, _, rfl⟩⟩⟩
      · cases h

/-- **Problems of sections are at lines of the text,** or of the text as a whole, and no line feed
gets into them. -/
theorem isPlaced_of_mem_check {maxRules : Nat} {problems : List Problem}
    (hnone : (Outline.ofLines lines).problems = [])
    (hcheck : (Outline.ofLines lines).check maxRules = .error problems) (h : p ∈ problems) :
    p.cause.IsPlain ∧ IsPlaced lines.length p := by
  obtain ⟨said, hlines, harranged, htakes⟩ := Outline.exists_said_of_ofLines hnone
  obtain ⟨hholds, -⟩ := Outline.records_ofLines hlines harranged htakes.length_declared_le
  have hfault : p ∈ structuralFaults maxRules said := by
    rcases Outline.Holds.check_error hholds hlines.proper hlines.alternatives_ne_nil hcheck with
      ⟨-, hperm⟩ | ⟨-, hperm⟩
    · exact hperm.mem_iff.1 h
    · exact List.mem_append_left _ (hperm.mem_iff.1 h)
  exact isPlaced_of_mem_structuralFaults hlines hfault

end Sections

/-! ## The order of the lines -/

/-- The first list has at most one problem more, which is at the line. -/
def AddsAt (number : Nat) (later earlier : List Problem) : Prop :=
  later = earlier ∨ ∃ cause, later = .atLine number cause :: earlier

namespace Outline

variable {lines : List (List Char)} {n : Nat}

/-- The problems that were found at the line where they are: all but unclosed blocks. -/
def ownProblems (o : Outline) : List Problem :=
  o.problems.filter fun p => p.cause ≠ .unclosedProductionBlock

theorem addsAt_report (o : Outline) (number : Nat) (cause : Cause) :
    AddsAt number (o.report number cause).ownProblems o.ownProblems := by
  rw [ownProblems, report, List.filter_cons]
  split
  · exact .inr ⟨cause, rfl⟩
  · exact .inl rfl

theorem ownProblems_leaveBlock (o : Outline) : o.leaveBlock.ownProblems = o.ownProblems := by
  unfold leaveBlock
  split
  · exact List.filter_cons_of_neg (by simp [Located.atLine])
  · rfl

theorem addsAt_add (o : Outline) (number : Nat) (line : Line) :
    AddsAt number (o.add number line).ownProblems o.ownProblems := by
  cases line with
  | header sec words =>
    show AddsAt number (o.leaveBlock.declare sec ⟨words, number⟩).ownProblems _
    rw [← ownProblems_leaveBlock o, declare]
    split
    · exact addsAt_report _ _ _
    · cases sec <;> exact .inl rfl
  | openBlock row closes =>
    show AddsAt number (o.openBlock number row closes).ownProblems _
    unfold Outline.openBlock
    split
    · exact .inl rfl
    all_goals exact addsAt_report _ _ _
  | _ => exact .inl rfl

theorem addsAt_readLine (o : Outline) (chars : List Char) (number : Nat) :
    AddsAt number (o.readLine (chars, number)).ownProblems o.ownProblems := by
  unfold readLine
  split
  · exact addsAt_add o number _
  · exact addsAt_report o number _

/-- **Own problems are found in the order of the lines,** and kept with the last one first. -/
theorem pairwise_ownProblems_after (hn : n ≤ lines.length) :
    (∀ p ∈ (after lines n).ownProblems, p.place.number ≤ n) ∧
      (after lines n).ownProblems.Pairwise fun p q => q.place.number < p.place.number := by
  induction n with
  | zero => simp [after_zero, ownProblems]
  | succ n ih =>
    obtain ⟨hle, hpairwise⟩ := ih (Nat.le_of_succ_le hn)
    rw [after_succ hn]
    rcases addsAt_readLine (after lines n) (lineAt lines (n + 1)) (n + 1) with heq | ⟨cause, heq⟩
    · rw [heq]
      exact ⟨fun p hp => Nat.le_succ_of_le (hle p hp), hpairwise⟩
    · rw [heq, List.forall_mem_cons, List.pairwise_cons]
      exact ⟨⟨Nat.le_refl _, fun p hp => Nat.le_succ_of_le (hle p hp)⟩,
        fun p hp => Nat.lt_succ_of_le (hle p hp), hpairwise⟩

theorem pairwise_reverse_problems (lines : List (List Char)) :
    (ofLines lines).problems.reverse.Pairwise fun p q =>
      p.cause ≠ .unclosedProductionBlock → q.cause ≠ .unclosedProductionBlock →
        p.place.number < q.place.number := by
  have hpairwise := (pairwise_ownProblems_after (Nat.le_refl lines.length)).2
  rw [← ownProblems_leaveBlock, ← ofLines_eq, ownProblems, List.pairwise_filter] at hpairwise
  rw [List.pairwise_reverse]
  refine hpairwise.imp ?_
  intro p q h hq hp
  exact h (by simpa using hp) (by simpa using hq)

end Outline

/-! ## Malformed lines -/

/-- The line is malformed, inside the block and outside. -/
def Line.Malformed (chars : List Char) : Prop :=
  ∀ inBlock, ∃ cause, ofChars inBlock chars = .error cause

theorem Line.malformed_iff {chars : List Char} : Malformed chars ↔ said? chars = none := by
  constructor
  · intro h
    exact said?_eq_none_iff.2 (h true)
  · intro h inBlock
    cases hline : ofChars inBlock chars with
    | error cause => exact ⟨cause, rfl⟩
    | ok line =>
      rw [(ofChars_eq_ok_iff_said?.1 hline).1] at h
      cases h

/-- A closing brace outside the block is refused. -/
theorem Line.ofChars_closeBlock_outside {chars : List Char} (h : said? chars = some .closeBlock) :
    ofChars false chars = .error (.unexpectedToken "\x7d") := by
  obtain ⟨tokens, hscan, hspelled⟩ := said?_eq_some_iff.1 h
  cases hspelled
  rw [ofChars, hscan]
  rfl

/-- The problem is one of lines, which are looked at one after another: its line is malformed, or
comparing the sections does not find such problems. -/
def IsOfLines (lines : List (List Char)) (p : Problem) : Prop :=
  ¬ p.cause.IsStructural ∨ ∃ n, p.place = .line n ∧ Line.Malformed (lineAt lines n)

/-- Only comparing the sections finds such problems. -/
def Cause.IsOfSections : Cause → Prop
  | missingStartSymbol => True
  | undeclaredStartSymbol _ => True
  | undeclaredNonterminal _ => True
  | undeclaredSymbol _ => True
  | tooManyRules _ _ => True
  | _ => False

theorem Cause.IsOfLine.not_isOfSections {cause : Cause} {inBlock : Bool}
    (h : cause.IsOfLine inBlock) : ¬ cause.IsOfSections := by
  rcases h with h | ⟨-, rfl | rfl⟩
  · cases cause <;> simp_all [IsSpelling, IsOfSections]
  · exact id
  · exact id

namespace Outline

variable {lines : List (List Char)} {n : Nat} {p : Problem}

/-- **A malformed line is reported,** whatever was read before it. -/
theorem mem_problems_of_malformed (h : Line.Malformed (lineAt lines n)) :
    ∃ inBlock cause, Line.ofChars inBlock (lineAt lines n) = .error cause ∧
      .atLine n cause ∈ (ofLines lines).problems := by
  have hne : lineAt lines n ≠ [] := by
    intro hnil
    obtain ⟨cause, hcause⟩ := h true
    rw [hnil] at hcause
    cases hcause
  obtain ⟨hpos, hle⟩ := le_length_of_ne_nil hne
  obtain ⟨k, rfl⟩ : ∃ k, n = k + 1 := ⟨n - 1, by omega⟩
  obtain ⟨cause, hcause⟩ := h (after lines k).block.isInside
  refine ⟨_, cause, hcause, mem_problems_ofLines.2 (.inl ⟨k, hle, ?_⟩)⟩
  rw [readAt, hcause]
  exact .malformed

/-- An unclosed block is reported at a line that opens it, and so is well formed. -/
theorem cause_ne_unclosed_of_malformed (h : Line.Malformed (lineAt lines n))
    (hp : p ∈ (ofLines lines).problems) (hplace : p.place = .line n) :
    p.cause ≠ .unclosedProductionBlock := by
  intro hcause
  have heq : p = .atLine n .unclosedProductionBlock := by rw [Located.atLine, ← hplace, ← hcause]
  obtain ⟨⟨hopening, -⟩, -⟩ := mem_problems_unclosed_iff.1 (heq ▸ hp)
  rw [Line.reads, Line.malformed_iff.1 h] at hopening
  cases hopening

theorem isOfLines_of_malformed {inBlock : Bool} {cause : Cause}
    (h : Line.ofChars inBlock (lineAt lines n) = .error cause) :
    IsOfLines lines (.atLine n cause) := by
  cases hsaid : Line.said? (lineAt lines n) with
  | none => exact .inr ⟨n, rfl, Line.malformed_iff.2 hsaid⟩
  | some line =>
    -- A well-formed line is refused for its place, and this is no matter of sections.
    obtain ⟨hbelongs, rfl⟩ := Line.outside_of_refused hsaid h
    refine .inl ?_
    cases line with
    | row row closes =>
      obtain rfl := Except.error.inj ((Line.ofChars_row_outside hsaid).symm.trans h)
      exact id
    | closeBlock =>
      obtain rfl := Except.error.inj ((Line.ofChars_closeBlock_outside hsaid).symm.trans h)
      exact id
    | _ => cases hbelongs

theorem isOfLines_of_mem (h : p ∈ (ofLines lines).problems) :
    IsOfLines lines p ∧ ¬ p.cause.IsOfSections := by
  rcases mem_problems_ofLines.1 h with ⟨k, hk, hraises⟩ | ⟨openedAt, -, rfl⟩
  · generalize hline : readAt lines k = line at hraises
    cases hraises with
    | malformed =>
      exact ⟨isOfLines_of_malformed hline, (Line.failsFor_ofChars _ _ _ hline).not_isOfSections⟩
    | redeclared _ => exact ⟨.inl id, id⟩
    | reopened _ => exact ⟨.inl id, id⟩
    | left _ => exact ⟨.inl id, id⟩
  · exact ⟨.inl id, id⟩

end Outline

/-! ## Reports -/

section Report

variable {maxRules n : Nat} {text : String} {lines : List (List Char)} {problems : List Problem}
  {p : Problem}

/-- The report has the problems of lines, if there are any, and otherwise those of sections. -/
def Reports (maxRules : Nat) (lines : List (List Char)) (problems : List Problem) : Prop :=
  ((Outline.ofLines lines).problems = [] ∧
      (Outline.ofLines lines).check maxRules = .error problems) ∨
    ((Outline.ofLines lines).problems ≠ [] ∧
      problems = (Outline.ofLines lines).problems.reverse)

theorem reports_of_read (hlines : Text.lines text.toList = lines)
    (hread : read maxRules text = .error problems) : Reports maxRules lines problems := by
  subst hlines
  unfold read Outline.toGrammar Outline.ofChars at hread
  split at hread
  · next hnone => exact .inl ⟨hnone, hread⟩
  · next hsome => exact .inr ⟨hsome, (Except.error.inj hread).symm⟩

theorem Outline.ne_nil_of_check {o : Outline} (h : o.check maxRules = .error problems) :
    problems ≠ [] := by
  unfold check at h
  split at h
  · obtain rfl := Except.error.inj h
    simp
  · split at h
    · cases h
    · next hne =>
      obtain rfl := Except.error.inj h
      exact hne

/-- Comparing the sections is left for lines that are well formed, and finds no problem of lines. -/
theorem not_isOfLines_of_mem_check (hnone : (Outline.ofLines lines).problems = [])
    (hcheck : (Outline.ofLines lines).check maxRules = .error problems) (hp : p ∈ problems) :
    ¬ IsOfLines lines p := by
  rintro (hcause | ⟨n, -, hmalformed⟩)
  · exact hcause (Outline.isStructural_of_check hcheck hp)
  · obtain ⟨inBlock, cause, -, hmem⟩ := Outline.mem_problems_of_malformed hmalformed
    rw [hnone] at hmem
    cases hmem

namespace Reports

theorem ne_nil (h : Reports maxRules lines problems) : problems ≠ [] := by
  rcases h with ⟨-, hcheck⟩ | ⟨hsome, rfl⟩
  · exact Outline.ne_nil_of_check hcheck
  · simpa using hsome

theorem isPlaced (h : Reports maxRules lines problems) (hp : p ∈ problems) :
    p.cause.IsPlain ∧ IsPlaced lines.length p := by
  rcases h with ⟨hnone, hcheck⟩ | ⟨-, rfl⟩
  · exact isPlaced_of_mem_check hnone hcheck hp
  · exact Outline.isPlaced_of_mem_ofLines (List.mem_reverse.1 hp)

theorem eq_reverse (h : Reports maxRules lines problems)
    (hp : p ∈ (Outline.ofLines lines).problems) :
    problems = (Outline.ofLines lines).problems.reverse := by
  rcases h with ⟨hnone, -⟩ | ⟨-, heq⟩
  · rw [hnone] at hp
    cases hp
  · exact heq

theorem isOfLines_iff (h : Reports maxRules lines problems) (hp : p ∈ problems) :
    IsOfLines lines p ↔ p ∈ (Outline.ofLines lines).problems := by
  refine ⟨fun hofLines => ?_, fun hmem => (Outline.isOfLines_of_mem hmem).1⟩
  rcases h with ⟨hnone, hcheck⟩ | ⟨-, rfl⟩
  · exact absurd hofLines (not_isOfLines_of_mem_check hnone hcheck hp)
  · exact List.mem_reverse.1 hp

end Reports

theorem eq_singleton_of_pairwise
    (h : problems.Pairwise fun p q => p.place.number < q.place.number)
    (hplace : ∀ q ∈ problems, q.place = .line n) (hp : p ∈ problems) : problems = [p] := by
  rcases problems with _ | ⟨q, _ | ⟨r, rest⟩⟩
  · cases hp
  · rw [List.mem_singleton.1 hp]
  · have hlt := List.rel_of_pairwise_cons h List.mem_cons_self
    rw [hplace q List.mem_cons_self, hplace r (List.mem_cons_of_mem _ List.mem_cons_self)] at hlt
    exact absurd hlt (Nat.lt_irrefl _)

/-- What can be relied on in a report of the problems of a text. -/
structure IsFaithful (lines : List (List Char)) (problems : List Problem) : Prop where
  nonempty : problems ≠ []
  /-- Every problem has its place in the text. -/
  placed : ∀ p ∈ problems, IsPlaced lines.length p
  /-- A line that is malformed has one problem, which is why it is malformed. -/
  once : ∀ n, Line.Malformed (lineAt lines n) →
    ∃ inBlock cause, Line.ofChars inBlock (lineAt lines n) = .error cause ∧
      problems.filter (fun p => p.place = .line n) = [.atLine n cause]
  /-- Problems of lines are those which were found while the lines were read. -/
  of_lines : ∀ p ∈ problems, IsOfLines lines p ↔ p ∈ (Outline.ofLines lines).problems
  /-- They are in the order of the lines, but for unclosed blocks. -/
  increasing : problems.Pairwise fun p q =>
    IsOfLines lines p ∧ p.cause ≠ .unclosedProductionBlock →
      IsOfLines lines q ∧ q.cause ≠ .unclosedProductionBlock → p.place.number < q.place.number
  /-- No problem of sections stands beside a problem of lines. -/
  lines_first : (∃ p ∈ problems, IsOfLines lines p) →
    ∀ q ∈ problems, IsOfLines lines q ∧ ¬ q.cause.IsOfSections
  /-- Cut at its line feeds, what is shown has one piece for each problem. -/
  pieces : ((Located.renderAll problems).split '\n').toList.map String.Slice.copy =
    problems.map Located.render
  /-- The piece starts with the place of the problem. -/
  bracketed : ∀ p ∈ problems, ("[" ++ p.place.render ++ "]").toList <+: p.render.toList

/-- A malformed line is reported once. -/
theorem filter_place_of_malformed (h : Line.Malformed (lineAt lines n)) :
    ∃ inBlock cause, Line.ofChars inBlock (lineAt lines n) = .error cause ∧
      (Outline.ofLines lines).problems.reverse.filter (fun p => p.place = .line n) =
        [.atLine n cause] := by
  obtain ⟨inBlock, cause, hcause, hmem⟩ := Outline.mem_problems_of_malformed h
  refine ⟨inBlock, cause, hcause, @eq_singleton_of_pairwise n _ _ ?_ ?_ ?_⟩
  · rw [List.pairwise_filter]
    refine (Outline.pairwise_reverse_problems lines).imp_of_mem ?_
    intro p q hp hq hlt hpn hqn
    exact hlt
      (Outline.cause_ne_unclosed_of_malformed h (List.mem_reverse.1 hp) (by simpa using hpn))
      (Outline.cause_ne_unclosed_of_malformed h (List.mem_reverse.1 hq) (by simpa using hqn))
  · intro q hq
    simpa using (List.mem_filter.1 hq).2
  · exact List.mem_filter.2 ⟨List.mem_reverse.2 hmem, by simp [Located.atLine]⟩

theorem split_renderAll (hne : problems ≠ []) (hplain : ∀ p ∈ problems, p.cause.IsPlain) :
    ((Located.renderAll problems).split '\n').toList.map String.Slice.copy =
      problems.map Located.render := by
  have honeLine : ∀ piece ∈ problems.map Located.render, '\n' ∉ piece.toList := by
    intro piece hpiece
    obtain ⟨p, hp, rfl⟩ := List.mem_map.1 hpiece
    exact notMem_render_of_plain (hplain p hp)
  have hsplit := String.toList_split_intercalate honeLine
  rw [if_neg (by simpa using hne)] at hsplit
  exact hsplit

theorem bracket_prefix_render (p : Problem) :
    ("[" ++ p.place.render ++ "]").toList <+: p.render.toList := by
  have hrender : p.render =
      "[" ++ p.place.render ++ "]" ++ (" " ++ Message.message p.cause) := by
    have hlabel : "] " = "]" ++ " " := rfl
    simp only [Located.render, hlabel, String.append_assoc]
  exact ⟨(" " ++ Message.message p.cause).toList, by rw [hrender, ← String.toList_append]⟩

/-- **What a report of problems can be trusted for.** -/
theorem error_report_faithful (hlines : Text.lines text.toList = lines)
    (hread : read maxRules text = .error problems) : IsFaithful lines problems := by
  have hreports := reports_of_read hlines hread
  constructor
  case nonempty => exact hreports.ne_nil
  case placed => exact fun p hp => (hreports.isPlaced hp).2
  case once =>
    intro n hmalformed
    obtain ⟨-, cause, -, hmem⟩ := Outline.mem_problems_of_malformed hmalformed
    rw [hreports.eq_reverse hmem]
    exact filter_place_of_malformed hmalformed
  case of_lines => exact fun p hp => hreports.isOfLines_iff hp
  case increasing =>
    rw [List.pairwise_iff_forall_sublist]
    intro p q hsublist hp hq
    have hmem := (hreports.isOfLines_iff (hsublist.subset List.mem_cons_self)).1 hp.1
    rw [hreports.eq_reverse hmem] at hsublist
    exact List.pairwise_iff_forall_sublist.1 (Outline.pairwise_reverse_problems lines) hsublist
      hp.2 hq.2
  case lines_first =>
    rintro ⟨p, hp, hofLines⟩ q hq
    rw [hreports.eq_reverse ((hreports.isOfLines_iff hp).1 hofLines), List.mem_reverse] at hq
    exact Outline.isOfLines_of_mem hq
  case pieces => exact split_renderAll hreports.ne_nil fun p hp => (hreports.isPlaced hp).1
  case bracketed => exact fun p _ => bracket_prefix_render p

/-- A text with words that look like places of problems. -/
def forgedText : String := "P = \x7b\n[line 9] -> a\nS = S\n[line 1]\n[grammar]\r\x7d"

/-- What is reported of this text. -/
def forgedProblems : List Problem :=
  [.atLine 2 (.multiSymbolLeftHandSide "[line"), .atLine 1 .unclosedProductionBlock,
    .atLine 4 .unexpectedLine, .atLine 5 .unexpectedLine]

/-- None of these words starts a piece of what is shown. -/
theorem error_report_faithful_forged :
    read 10 forgedText = .error forgedProblems ∧
      Line.Malformed (lineAt (Text.lines forgedText.toList) 2) ∧
      IsFaithful (Text.lines forgedText.toList) forgedProblems := by
  have hread : read 10 forgedText = .error forgedProblems := rfl
  have hmalformed : Line.Malformed (lineAt (Text.lines forgedText.toList) 2) := by
    intro inBlock
    cases inBlock <;> exact ⟨_, rfl⟩
  exact ⟨hread, hmalformed, error_report_faithful rfl hread⟩

end Report

end Source

end PhraseStructure
