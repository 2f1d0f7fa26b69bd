import PhraseStructure.Grammar.Printer
import PhraseStructure.Proofs.Format

/-!
# Reading a printed grammar

A printed grammar keeps the format of grammar texts: its lines are those of `printedLines`, each
spelled by its characters, and the sections are consistent if the grammar is well formed. What the
lines describe is the grammar itself, since neighbouring productions of one nonterminal share a row
and sets are listed in order.

* `scan_word`, `scan_mark`, `scan_blank`: how printed characters are cut into tokens.
* `lines_render`, `says_shownLines`: the lines of a printed grammar, and what they say.
* `read_render`: reading a printed grammar gives it back.
-/

namespace PhraseStructure

/-! ## Lines -/

namespace Text

/-- Whether a character ends no line. -/
def isPlain (c : Char) : Bool := c != '\n' && c != '\r'

theorem isPlain_iff {c : Char} : isPlain c = true ↔ c ≠ '\n' ∧ c ≠ '\r' := by
  simp [isPlain]

theorem lines_cons {c : Char} {rest : List Char} (hc : isPlain c = true) :
    lines (c :: rest) =
      match lines rest with
      | [] => [[c]]
      | line :: later => (c :: line) :: later := by
  obtain ⟨hfeed, hreturn⟩ := isPlain_iff.1 hc
  exact lines.eq_4 c rest hfeed fun _ h _ => hreturn h

/-- A line of plain characters is the first one of a text that starts with it. -/
theorem lines_append {line rest : List Char} (h : ∀ c ∈ line, isPlain c = true) :
    lines (line ++ '\n' :: rest) = line :: lines rest := by
  induction line with
  | nil => rfl
  | cons c line ih =>
    rw [List.forall_mem_cons] at h
    rw [List.cons_append, lines_cons h.1, ih h.2]

theorem lines_eq_singleton {line : List Char} (hne : line ≠ [])
    (h : ∀ c ∈ line, isPlain c = true) : lines line = [line] := by
  induction line with
  | nil => exact absurd rfl hne
  | cons c line ih =>
    rw [List.forall_mem_cons] at h
    rw [lines_cons h.1]
    cases line with
    | nil => rfl
    | cons d line => rw [ih (List.cons_ne_nil d line) h.2]

/-- **Lines that are put together are found again,** if they are plain and none is empty. -/
theorem lines_intercalate {ls : List (List Char)}
    (h : ∀ line ∈ ls, line ≠ [] ∧ ∀ c ∈ line, isPlain c = true) :
    lines (['\n'].intercalate ls) = ls := by
  induction ls with
  | nil => rfl
  | cons line rest ih =>
    rw [List.forall_mem_cons] at h
    obtain ⟨⟨hne, hline⟩, hrest⟩ := h
    cases rest with
    | nil => simpa using lines_eq_singleton hne hline
    | cons next rest =>
      rw [List.intercalate_cons_cons, List.append_assoc, List.singleton_append,
        lines_append hline, ih hrest]

end Text

namespace Source

/-! ## Tokens -/

namespace Token

theorem isLetter_of_isAlphanum {c : Char} (h : c.isAlphanum = true) : isLetter c = true := by
  have hlt : c.toNat < 128 := by
    rw [isAlphanum_eq, Bool.or_eq_true, Symbol.isUpper_iff, Symbol.isLower_or_isDigit_iff] at h
    omega
  -- The other characters of a line are told from these by a look at the ASCII ones.
  have hall : ∀ n < 128, (Char.ofNat n).isAlphanum = true → isLetter (Char.ofNat n) = true := by
    decide +kernel
  have hc := hall c.toNat hlt
  rw [Char.ofNat_toNat] at hc
  exact hc h

theorem isLetter_of_ofChar? {c : Char} {s : Symbol} (h : Symbol.ofChar? c = some s) :
    isLetter c = true :=
  isLetter_of_isAlphanum (exists_ofChar?_iff.1 ⟨s, h⟩)

theorem isLetter_of_mem_chars {form : Form} (h : ∀ s ∈ form, s.Proper) :
    ∀ c ∈ form.chars, isLetter c = true := by
  intro c hc
  obtain ⟨s, hs, rfl⟩ := List.mem_map.1 hc
  exact isLetter_of_ofChar? (h s hs)

theorem scanFrom_letter {c : Char} (hc : isLetter c = true) (pending rest : List Char) :
    scanFrom pending (c :: rest) = scanFrom (c :: pending) rest := by
  simp only [isLetter, Bool.and_eq_true, Bool.not_eq_true', bne_iff_ne, ne_eq,
    Option.isNone_iff_eq_none] at hc
  obtain ⟨⟨⟨hmark, hsep⟩, hhash⟩, hdash⟩ := hc
  rw [scanFrom]
  · simp only [hmark, hsep, Bool.false_eq_true, if_false]
  · exact hhash
  · intro _ h _
    exact hdash h
  · exact hdash

theorem scanFrom_letters {letters : List Char} (h : ∀ c ∈ letters, isLetter c = true)
    (pending rest : List Char) :
    scanFrom pending (letters ++ rest) = scanFrom (letters.reverse ++ pending) rest := by
  induction letters generalizing pending with
  | nil => rfl
  | cons c letters ih =>
    rw [List.forall_mem_cons] at h
    rw [List.cons_append, scanFrom_letter h.1, ih h.2]
    simp

variable {rest : List Char} {tokens : List Token}

theorem scan_nil : scan [] = .ok [] := rfl

theorem scan_blank (h : scan rest = .ok tokens) : scan (' ' :: rest) = .ok tokens := by
  unfold scan at h ⊢
  show (scanFrom [] rest >>= fun tokens => pure (flush [] tokens)) = _
  rw [h]
  rfl

theorem scan_of_scan_blank (h : scan (' ' :: rest) = .ok tokens) : scan rest = .ok tokens := by
  obtain ⟨tokens', htokens', h⟩ := bind_eq_ok h
  obtain rfl := Except.ok.inj h
  exact htokens'

theorem scan_mark {c : Char} {mark : Token} (hc : ofMark? c = some mark)
    (h : scan rest = .ok tokens) : scan (c :: rest) = .ok (mark :: tokens) := by
  have hhash : c ≠ '#' := by
    rintro rfl
    cases hc
  have hdash : c ≠ '-' := by
    rintro rfl
    cases hc
  unfold scan at h ⊢
  rw [scanFrom]
  · simp only [hc, h]
    rfl
  · exact hhash
  · intro _ h _
    exact hdash h
  · exact hdash

/-- A word is read to its end, which a blank or the end of the line marks. -/
theorem scan_word {letters : List Char} (hne : letters ≠ [])
    (hletters : ∀ c ∈ letters, isLetter c = true) (hend : ∀ c ∈ rest.head?, c = ' ')
    (h : scan rest = .ok tokens) : scan (letters ++ rest) = .ok (word letters :: tokens) := by
  -- The scanner holds the letters back, the last one first, until the word ends.
  have hflush : ∀ tokens, flush letters.reverse tokens = word letters :: tokens := by
    intro tokens
    simp [flush, hne]
  rw [scan, scanFrom_letters hletters, List.append_nil]
  cases rest with
  | nil =>
    obtain rfl : [] = tokens := Except.ok.inj h
    exact congrArg Except.ok (hflush [])
  | cons c rest =>
    obtain rfl := hend c rfl
    show (scanFrom [] rest >>= fun tokens => pure (flush letters.reverse tokens)) = _
    rw [show scanFrom [] rest = .ok tokens from scan_of_scan_blank h]
    exact congrArg Except.ok (hflush tokens)

theorem scan_word_blank {letters : List Char} (hne : letters ≠ [])
    (hletters : ∀ c ∈ letters, isLetter c = true) (h : scan rest = .ok tokens) :
    scan (letters ++ ' ' :: rest) = .ok (word letters :: tokens) :=
  scan_word hne hletters (by simp) (scan_blank h)

/-- Single characters with blanks between them are read as words. -/
theorem scan_chars {cs : List Char} (h : ∀ c ∈ cs, isLetter c = true) :
    scan ([' '].intercalate (cs.map fun c => [c])) = .ok (cs.map fun c => word [c]) := by
  induction cs with
  | nil => rfl
  | cons c cs ih =>
    rw [List.forall_mem_cons] at h
    have hc : ∀ d ∈ [c], isLetter d = true := List.forall_mem_singleton.2 h.1
    cases cs with
    | nil => exact scan_word (List.cons_ne_nil c []) hc (by simp) scan_nil
    | cons d cs =>
      rw [List.map_cons, List.map_cons, List.intercalate_cons_cons, List.append_assoc]
      exact scan_word_blank (List.cons_ne_nil c []) hc (ih h.2)

/-- The tokens that show a form. -/
def ofForm (form : Form) : List Token := if form.isEmpty then [epsilon] else [word form.chars]

theorem scan_shown {form : Form} (hform : ∀ s ∈ form, s.Proper) (hend : ∀ c ∈ rest.head?, c = ' ')
    (h : scan rest = .ok tokens) : scan (form.shown ++ rest) = .ok (ofForm form ++ tokens) := by
  cases form with
  | nil => exact scan_mark rfl h
  | cons s form =>
    have hne : Form.chars (s :: form) ≠ [] := List.cons_ne_nil _ _
    exact scan_word hne (isLetter_of_mem_chars hform) hend h

/-- Alternatives with bars between them are read as the tokens of the alternatives. -/
theorem scan_alternatives {forms : List Form} (h : ∀ form ∈ forms, ∀ s ∈ form, s.Proper) :
    scan (" | ".toList.intercalate (forms.map Form.shown)) =
      .ok ([bar].intercalate (forms.map ofForm)) := by
  induction forms with
  | nil => rfl
  | cons form forms ih =>
    rw [List.forall_mem_cons] at h
    cases forms with
    | nil => simpa using scan_shown h.1 (by simp) scan_nil
    | cons next forms =>
      simp only [List.map_cons, List.intercalate_cons_cons, List.append_assoc]
      refine scan_shown h.1 (by simp) ?_
      exact scan_blank (scan_mark rfl (scan_blank (ih h.2)))

end Token

/-! ## Rows and lines -/

theorem ofChars_chars {form : Form} (h : ∀ s ∈ form, s.Proper) :
    Form.ofChars form.chars = form := by
  induction form with
  | nil => rfl
  | cons s form ih =>
    rw [List.forall_mem_cons] at h
    have hcons : Form.chars (s :: form) = s.char :: Form.chars form := rfl
    rw [hcons, ofChars_cons h.1, ih h.2]

theorem spelledForm_ofForm {form : Form} (h : ∀ s ∈ form, s.Proper) :
    spelledForm (Token.ofForm form) = form := by
  cases form with
  | nil => rfl
  | cons s form =>
    have hletters : (Token.ofForm (s :: form)).flatMap Token.letters = Form.chars (s :: form) :=
      List.append_nil _
    rw [spelledForm, hletters, ofChars_chars h]

theorem isSymbols_of_mem_ofForm {form : Form} (h : ∀ s ∈ form, s.Proper) :
    ∀ token ∈ Token.ofForm form, token.IsSymbols := by
  intro token htoken
  cases form with
  | nil =>
    rw [List.mem_singleton.1 htoken]
    trivial
  | cons s form =>
    rw [List.mem_singleton.1 htoken]
    intro c hc
    obtain ⟨t, ht, rfl⟩ := List.mem_map.1 hc
    exact exists_ofChar?_iff.1 ⟨t, h t ht⟩

/-- The row that a run of productions is printed as. -/
def Row.ofRun (run : Run) : Row := ⟨run.lhs, run.alternatives⟩

theorem Row.spelled_ofRun {run : Run} (hlhs : run.lhs.isUpper = true)
    (hne : run.alternatives ≠ []) (hproper : ∀ form ∈ run.alternatives, ∀ s ∈ form, s.Proper) :
    (Row.ofRun run).Spelled
      (.word [run.lhs] :: .arrow :: [.bar].intercalate (run.alternatives.map Token.ofForm)) := by
  refine ⟨hlhs, run.alternatives.map Token.ofForm, by simpa using hne, ?_, rfl, ?_⟩
  · intro part hpart
    obtain ⟨form, hform, rfl⟩ := List.mem_map.1 hpart
    exact isSymbols_of_mem_ofForm (hproper form hform)
  · rw [List.map_map]
    refine (List.map_id _).symm.trans (List.map_congr_left ?_)
    intro form hform
    exact (spelledForm_ofForm (hproper form hform)).symm

/-- A printed row is spelled as a row. -/
theorem spelledBy_run {run : Run} (hlhs : run.lhs.isUpper = true) (hne : run.alternatives ≠ [])
    (hproper : ∀ form ∈ run.alternatives, ∀ s ∈ form, s.Proper) :
    Line.SpelledBy (.row (Row.ofRun run) false) run.shown := by
  refine ⟨_, ?_, Line.Spelled.row false (Row.spelled_ofRun hlhs hne hproper)⟩
  have hletter : ∀ c ∈ [run.lhs], Token.isLetter c = true :=
    List.forall_mem_singleton.2 (Token.isLetter_of_ofChar? (Symbol.ofChar?_of_isUpper hlhs))
  have hright := Token.scan_alternatives hproper
  have hword := Token.scan_word_blank (List.cons_ne_nil _ _) hletter
    (Token.scan_mark (c := '→') rfl (Token.scan_blank hright))
  have hline := Token.scan_blank (Token.scan_blank (Token.scan_blank (Token.scan_blank hword)))
  have hshown : run.shown = ' ' :: ' ' :: ' ' :: ' ' :: ([run.lhs] ++ ' ' :: '→' :: ' ' ::
      " | ".toList.intercalate (run.alternatives.map Form.shown)) := rfl
  rw [hshown, closing, List.append_nil]
  exact hline

/-- A printed declaration is spelled as a declaration. -/
theorem spelledBy_header (sec : Section) {cs : List Char}
    (h : ∀ c ∈ cs, Token.isLetter c = true) :
    Line.SpelledBy (.header sec (cs.map fun c => [c]))
      (sec.letter :: ' ' :: '=' :: ' ' :: [' '].intercalate (cs.map fun c => [c])) := by
  have hletter : ∀ c ∈ [sec.letter], Token.isLetter c = true :=
    List.forall_mem_singleton.2 (by cases sec <;> rfl)
  have hwords := Token.scan_word_blank (List.cons_ne_nil _ _) hletter
    (Token.scan_mark (c := '=') rfl (Token.scan_blank (Token.scan_chars h)))
  refine ⟨_, hwords, ?_⟩
  have hspelled := Line.Spelled.header sec (cs.map fun c => [c])
  rwa [List.map_map] at hspelled

end Source

/-! ## Printed grammars -/

/-- The members of an alphabet, put together, are the alphabet. -/
theorem Alphabet.ofList_chars (a : Alphabet) : ofList a.chars = a := by
  have hlist : ∀ {cs : List Char}, cs.Pairwise (· < ·) → (ofList cs).chars = cs := by
    intro cs hcs
    induction cs with
    | nil => rfl
    | cons c rest ih =>
      obtain ⟨hlt, hrest⟩ := List.pairwise_cons.1 hcs
      show place c (ofList rest).chars = c :: rest
      rw [ih hrest]
      cases rest with
      | nil => rfl
      | cons d rest =>
        have hd : c < d := hlt d List.mem_cons_self
        simp only [place, hd, if_true]
  have hext : ∀ {a b : Alphabet}, a.chars = b.chars → a = b := by
    intro a b h
    cases a
    cases b
    cases h
    rfl
  exact hext (hlist a.sorted)

namespace Run

theorem alternatives_ne_nil {ps : List Production} :
    ∀ run ∈ group ps, run.alternatives ≠ [] := by
  induction ps with
  | nil =>
    intro run hrun
    cases hrun
  | cons p rest ih =>
    unfold group
    split
    · simp
    · next run runs hgroup =>
      rw [hgroup, List.forall_mem_cons] at ih
      split
      · rw [List.forall_mem_cons]
        exact ⟨List.cons_ne_nil _ _, ih.2⟩
      · rw [List.forall_mem_cons, List.forall_mem_cons]
        exact ⟨List.cons_ne_nil _ _, ih⟩

theorem mem_of_mem_group {ps : List Production} {run : Run} (hrun : run ∈ group ps) {form : Form}
    (hform : form ∈ run.alternatives) : ⟨run.lhs, form⟩ ∈ ps := by
  rw [← flatMap_productions_group ps]
  exact List.mem_flatMap.2 ⟨run, hrun, List.mem_map.2 ⟨form, hform, rfl⟩⟩

end Run

namespace Grammar

variable {g : Grammar}

theorem WellFormed.proper_of_declares (hg : g.WellFormed) {s : Symbol} (h : g.Declares s) :
    s.Proper := by
  cases s with
  | nonterminal c => exact Symbol.ofChar?_of_isUpper (hg.nonterminal_isUpper c h)
  | terminal c => exact Symbol.ofChar?_of_isLower_or_isDigit (hg.terminal_isLower_or_isDigit c h)

theorem WellFormed.proper (hg : g.WellFormed) {p : Production} (hp : p ∈ g.productions) :
    ∀ s ∈ p.rhs, s.Proper :=
  fun s hs => hg.proper_of_declares (hg.rhs_declared p hp s hs)

theorem WellFormed.run (hg : g.WellFormed) {run : Run} (hrun : run ∈ Run.group g.productions) :
    run.lhs ∈ g.nonterminals ∧ ∀ form ∈ run.alternatives, ∀ s ∈ form, g.Declares s ∧ s.Proper := by
  constructor
  · obtain ⟨form, hform⟩ := List.exists_mem_of_ne_nil _ (Run.alternatives_ne_nil run hrun)
    exact hg.lhs_mem _ (Run.mem_of_mem_group hrun hform)
  · intro form hform s hs
    have hp := Run.mem_of_mem_group hrun hform
    exact ⟨hg.rhs_declared _ hp s hs, hg.proper hp s hs⟩

theorem WellFormed.isLetter_nonterminal (hg : g.WellFormed) {c : Char} (hc : c ∈ g.nonterminals) :
    Source.Token.isLetter c = true :=
  Source.Token.isLetter_of_ofChar? (Symbol.ofChar?_of_isUpper (hg.nonterminal_isUpper c hc))

theorem WellFormed.isLetter_terminal (hg : g.WellFormed) {c : Char} (hc : c ∈ g.terminals) :
    Source.Token.isLetter c = true :=
  Source.Token.isLetter_of_ofChar?
    (Symbol.ofChar?_of_isLower_or_isDigit (hg.terminal_isLower_or_isDigit c hc))

open Source

/-! ### The lines of the text -/

theorem isPlain_of_isLetter {c : Char} (h : Token.isLetter c = true) :
    Text.isPlain c = true := by
  rw [Text.isPlain_iff]
  constructor
  · rintro rfl
    revert h
    decide
  · rintro rfl
    revert h
    decide

theorem isPlain_intercalate {sep : List Char} {ls : List (List Char)}
    (hsep : ∀ c ∈ sep, Text.isPlain c = true) (hls : ∀ l ∈ ls, ∀ c ∈ l, Text.isPlain c = true) :
    ∀ c ∈ sep.intercalate ls, Text.isPlain c = true := by
  intro c hc
  rcases mem_intercalate hc with hc | ⟨l, hl, hc⟩
  · exact hsep c hc
  · exact hls l hl c hc

theorem isPlain_chars {cs : List Char} (h : ∀ c ∈ cs, Token.isLetter c = true) :
    ∀ c ∈ [' '].intercalate (cs.map fun c => [c]), Text.isPlain c = true := by
  refine isPlain_intercalate (List.all_eq_true.1 rfl) ?_
  intro l hl c hc
  obtain ⟨d, hd, rfl⟩ := List.mem_map.1 hl
  rw [List.mem_singleton.1 hc]
  exact isPlain_of_isLetter (h d hd)

theorem isPlain_shown {form : Form} (h : ∀ s ∈ form, s.Proper) :
    ∀ c ∈ form.shown, Text.isPlain c = true := by
  cases form with
  | nil => exact List.all_eq_true.1 rfl
  | cons s form =>
    intro c hc
    exact isPlain_of_isLetter (Token.isLetter_of_mem_chars h c hc)

theorem WellFormed.isPlain_run (hg : g.WellFormed) {run : Run}
    (hrun : run ∈ Run.group g.productions) : ∀ c ∈ run.shown, Text.isPlain c = true := by
  obtain ⟨hlhs, hforms⟩ := hg.run hrun
  unfold Run.shown
  simp only [List.forall_mem_append]
  refine ⟨⟨⟨List.all_eq_true.1 rfl, ?_⟩, List.all_eq_true.1 rfl⟩,
    isPlain_intercalate (List.all_eq_true.1 rfl) ?_⟩
  · exact List.forall_mem_singleton.2 (isPlain_of_isLetter (hg.isLetter_nonterminal hlhs))
  · intro l hl
    obtain ⟨form, hform, rfl⟩ := List.mem_map.1 hl
    exact isPlain_shown fun s hs => (hforms form hform s hs).2

/-- The printed lines are the lines of the printed text. -/
theorem lines_render (hg : g.WellFormed) : Text.lines g.render.toList = g.shownLines := by
  rw [render, String.toList_ofList]
  refine Text.lines_intercalate ?_
  have hnonterminals := isPlain_chars fun c (hc : c ∈ g.nonterminals.chars) =>
    hg.isLetter_nonterminal hc
  have hterminals := isPlain_chars fun c (hc : c ∈ g.terminals.chars) => hg.isLetter_terminal hc
  have hstart := isPlain_of_isLetter (hg.isLetter_nonterminal hg.start_mem)
  -- What stands around the symbols is plain by inspection.
  simp only [shownLines, List.forall_mem_append, List.forall_mem_cons]
  refine ⟨⟨?_, ?_⟩, ?_, by simp⟩
  · refine ⟨⟨List.cons_ne_nil _ _, ?_⟩, ⟨List.cons_ne_nil _ _, ?_⟩, ⟨List.cons_ne_nil _ _, ?_⟩,
      ⟨List.cons_ne_nil _ _, List.all_eq_true.1 rfl⟩, by simp⟩
    · exact ⟨List.all_eq_true.1 rfl, hnonterminals⟩
    · exact ⟨List.all_eq_true.1 rfl, hterminals⟩
    · exact ⟨List.all_eq_true.1 rfl, hstart, by simp⟩
  · intro line hline
    obtain ⟨run, hrun, rfl⟩ := List.mem_map.1 hline
    exact ⟨List.cons_ne_nil _ _, hg.isPlain_run hrun⟩
  · exact ⟨List.cons_ne_nil _ _, List.all_eq_true.1 rfl⟩

/-! ### What they say -/

/-- The declarations of the printed grammar. -/
def printedHeaders (g : Grammar) : List Line :=
  [ .header .nonterminals (g.nonterminals.chars.map fun c => [c]),
    .header .terminals (g.terminals.chars.map fun c => [c]),
    .header .start [[g.start]] ]

/-- The rows of the printed grammar, one for each run. -/
def printedRows (g : Grammar) : List Line :=
  (Run.group g.productions).map fun run => .row (Row.ofRun run) false

/-- What the lines of the printed grammar say. -/
def printedLines (g : Grammar) : List Line :=
  g.printedHeaders ++ .openBlock none false :: (g.printedRows ++ [.closeBlock])

theorem says_shownLines (hg : g.WellFormed) : Says g.shownLines g.printedLines := by
  have hrows : Says ((Run.group g.productions).map Run.shown) g.printedRows := by
    rw [Says, printedRows, List.forall₂_map_left_iff, List.forall₂_map_right_iff, List.forall₂_same]
    intro run hrun
    obtain ⟨hlhs, hforms⟩ := hg.run hrun
    exact spelledBy_run (hg.nonterminal_isUpper _ hlhs) (Run.alternatives_ne_nil run hrun)
      fun form hform s hs => (hforms form hform s hs).2
  have hstart : ∀ c ∈ [g.start], Token.isLetter c = true :=
    List.forall_mem_singleton.2 (hg.isLetter_nonterminal hg.start_mem)
  rw [shownLines, List.append_assoc]
  refine .cons (spelledBy_header .nonterminals fun c hc => hg.isLetter_nonterminal hc) ?_
  refine .cons (spelledBy_header .terminals fun c hc => hg.isLetter_terminal hc) ?_
  refine .cons (spelledBy_header .start hstart) ?_
  refine .cons ⟨_, rfl, .openBlock false⟩ ?_
  exact List.rel_append hrows (.cons ⟨_, rfl, .closeBlock⟩ .nil)

theorem arranged_printedLines (g : Grammar) : Arranged g.printedLines := by
  have hblock : IsBlock (.openBlock none false :: (g.printedRows ++ [.closeBlock])) := by
    refine .inr ⟨none, g.printedRows, .closeBlock, rfl, ?_, trivial⟩
    intro line hline
    obtain ⟨run, -, rfl⟩ := List.mem_map.1 hline
    exact rfl
  refine ⟨g.printedHeaders, _, [], ?_, ?_, .inr hblock⟩
  · rw [printedLines, List.append_nil]
  · simp [printedHeaders, Line.IsOuter]

theorem declared_printedLines (g : Grammar) (sec : Section) :
    declared sec g.printedLines = match sec with
      | .nonterminals => [g.nonterminals.chars.map fun c => [c]]
      | .terminals => [g.terminals.chars.map fun c => [c]]
      | .start => [[[g.start]]] := by
  have hrows : declared sec g.printedRows = [] := by
    rw [declared, List.filterMap_eq_nil_iff]
    intro line hline
    obtain ⟨run, -, rfl⟩ := List.mem_map.1 hline
    rfl
  rw [printedLines, declared_append, declared_cons, declared_append, hrows]
  cases sec <;> rfl

theorem rowsOf_printedLines (g : Grammar) :
    rowsOf g.printedLines = (Run.group g.productions).map Row.ofRun := by
  have hrows : rowsOf g.printedRows = (Run.group g.productions).map Row.ofRun := by
    rw [rowsOf, printedRows, List.filterMap_map, ← List.filterMap_eq_map]
    rfl
  rw [printedLines, rowsOf_append, rowsOf_cons, rowsOf_append, hrows]
  exact List.append_nil _

theorem flatMap_productions_printed (g : Grammar) :
    ((Run.group g.productions).map Row.ofRun).flatMap Row.productions = g.productions := by
  rw [List.flatMap_map]
  exact Run.flatMap_productions_group g.productions

theorem consistent_printedLines (hg : g.WellFormed) {maxRules : Nat}
    (hcard : (g.productions.map Production.lhs).toFinset.card ≤ maxRules) :
    Consistent maxRules (fun sec => declared sec g.printedLines) (rowsOf g.printedLines)
      g.start := by
  have hne : ∀ row ∈ (Run.group g.productions).map Row.ofRun, row.alternatives ≠ [] :=
    List.forall_mem_map.2 Run.alternatives_ne_nil
  have hlhs := toFinset_lhs_productions hne
  rw [flatMap_productions_printed] at hlhs
  simp only [rowsOf_printedLines, declared_printedLines]
  -- Each section has one line of words, which are the members of an alphabet.
  refine ⟨rfl, hg.nonterminal_isUpper _ hg.start_mem, ?_, ?_, ?_, ?_, ?_, ?_, ?_⟩
  · simp only [List.mem_singleton, forall_eq, List.forall_mem_map]
    intro c hc
    exact ⟨c, rfl, hg.nonterminal_isUpper c hc⟩
  · simp only [List.mem_singleton, forall_eq, List.forall_mem_map]
    intro c hc
    exact ⟨c, rfl, hg.terminal_isLower_or_isDigit c hc⟩
  · simp only [List.mem_singleton, forall_eq]
    exact List.mem_map_of_mem hg.start_mem
  · simp only [List.mem_singleton, forall_eq, List.forall_mem_map]
    intro run hrun
    exact List.mem_map_of_mem (hg.run hrun).1
  · simp only [List.mem_singleton, forall_eq, List.forall_mem_map]
    intro run hrun form hform c hc
    exact List.mem_map_of_mem ((hg.run hrun).2 form hform _ hc).1
  · simp only [List.mem_singleton, forall_eq, List.forall_mem_map]
    intro run hrun form hform c hc
    exact List.mem_map_of_mem ((hg.run hrun).2 form hform _ hc).1
  · rw [← hlhs]
    exact hcard

theorem described_printedLines (g : Grammar) :
    described (fun sec => declared sec g.printedLines) (rowsOf g.printedLines) g.start = g := by
  have hset : ∀ {used a : Alphabet}, declaredOr used [a.chars.map fun c => [c]] = a := by
    intro used a
    rw [declaredOr, ← List.flatMap_def, List.flatMap_singleton', Alphabet.ofList_chars]
  simp only [described, declared_printedLines, rowsOf_printedLines, flatMap_productions_printed,
    hset]

theorem WellFormed.read_printed (hg : g.WellFormed) {maxRules : Nat}
    (hcard : (g.productions.map Production.lhs).toFinset.card ≤ maxRules) :
    Source.read maxRules g.render = .ok g := by
  refine read_eq_ok_iff.2 ⟨g.printedLines, g.start, ?_, arranged_printedLines g, ?_,
    consistent_printedLines hg hcard, (described_printedLines g).symm⟩
  · rw [lines_render hg]
    exact says_shownLines hg
  · intro sec
    rw [declared_printedLines]
    cases sec <;> exact le_rfl

/-- **A printed grammar is read as itself**, if it is well formed and has no more left-hand sides
than are allowed. So a text that is read can be replaced by the printed grammar, and neither this
limit nor a larger one tells them apart. -/
theorem read_render :
    (∀ (g : Grammar) (maxRules : Nat), g.WellFormed →
      (g.productions.map Production.lhs).toFinset.card ≤ maxRules →
        Source.read maxRules g.render = .ok g) ∧
    ∀ (text : String) (maxRules maxRules' : Nat) (g : Grammar), maxRules ≤ maxRules' →
      Source.read maxRules text = .ok g → Source.read maxRules' g.render = .ok g := by
  constructor
  · intro g maxRules hg hcard
    exact hg.read_printed hcard
  · intro text maxRules maxRules' g hle hread
    have hcard := card_lhs_le_of_read hread
    exact (wellFormed_of_read hread).read_printed (hcard.trans hle)

/-- A grammar whose nonterminals are the letters of the sections. It has no terminals, and its rows
of `N` stand before and after two equal productions of `S`. -/
def lookalike : Grammar :=
  { nonterminals := .ofList ['N', 'P', 'S', 'T']
    terminals := .empty
    start := 'N'
    productions :=
      [⟨'N', [.nonterminal 'P', .nonterminal 'T']⟩, ⟨'N', []⟩, ⟨'S', []⟩, ⟨'S', []⟩,
        ⟨'N', [.nonterminal 'S']⟩] }

/-- Its printed form is read as the grammar, and so is a text that leaves the sets to be found. -/
theorem read_render_lookalike :
    lookalike.render = "N = N P S T\nT = \nS = N\nP = \x7b\n    N → PT | ε\n    S → ε | ε\n" ++
      "    N → S\n\x7d" ∧
    lookalike.WellFormed ∧ (lookalike.productions.map Production.lhs).toFinset.card ≤ 2 ∧
    Source.read 2 lookalike.render = .ok lookalike ∧
    Source.read 2 "P = \x7b N -> P T |\nS -> ε | ε\n\nN → S \x7d\nS = N" = .ok lookalike ∧
    Source.read 3 lookalike.render = .ok lookalike := by
  have hwell : lookalike.WellFormed := by
    refine ⟨?_, ?_, by decide, by decide, ?_⟩
    · show ∀ c ∈ ['N', 'P', 'S', 'T'], c.isUpper = true
      exact List.all_eq_true.1 rfl
    · intro c hc
      exact absurd hc (Alphabet.not_mem_empty c)
    · simp [lookalike, Declares]
  have hread : Source.read 2 "P = \x7b N -> P T |\nS -> ε | ε\n\nN → S \x7d\nS = N" =
      .ok lookalike := by rfl
  refine ⟨by decide +kernel, hwell, by decide, ?_, hread, ?_⟩
  · exact read_render.1 lookalike 2 hwell (by decide)
  · exact read_render.2 _ 2 3 lookalike (by decide) hread

end Grammar

end PhraseStructure
