import PhraseStructure.Proofs.Scanning

/-!
# A line read turn by turn

Tokens are taken off the front of a line, one turn after another: a mark, an arrow, a separator, or
all the letters up to the first character that is none. Which characters are letters is a list of
its own, and a turn is sure to take something only because this list leaves out just the characters
that start a turn of another kind.

* `turn`, `turn_cases`: what a turn can do. `Takes` says what it takes.
* `turn_induction`, `scan_induction`: what every turn carries over from the rest of a line to the
  line holds of all lines. What follows is proved in this way.
* `exists_reads`: the turns come to an end, and give what `scan` gives.
* `scan_eq_error_iff`: a line is unreadable just if it has a lone dash.
* `flatMap_chars_of_scan`: the tokens spell what stands before the comment.
* `heldApart_of_scan`: only separators make one word into two.
* `scan_faithful`: all of this together.
-/

namespace PhraseStructure.Source

namespace Token

/-! ## Word characters -/

/-- The characters that no word has, besides the blanks. -/
def wordEnds : List Char := ['=', '|', '{', '}', ',', '#', '-', '→', 'ε', 'λ']

/-- Whether a character belongs to words. -/
def isWordChar (c : Char) : Bool := !Text.isBlank c && !wordEnds.contains c

theorem ofMark?_eq_none_iff {c : Char} :
    ofMark? c = none ↔ c ∉ ['=', '|', '→', '{', '}', 'ε', 'λ'] := by
  unfold ofMark?
  split
  case h_8 hequals hbar harrow hopen hclose hepsilon hlambda =>
    simp only [true_iff, List.mem_cons, List.not_mem_nil, or_false, not_or]
    exact ⟨hequals, hbar, harrow, hopen, hclose, hepsilon, hlambda⟩
  all_goals simp

/-- **The word characters are those that neither end a line nor start a turn of another kind.** -/
theorem isWordChar_eq_isLetter (c : Char) : isWordChar c = isLetter c := by
  rw [Bool.eq_iff_iff]
  simp only [isWordChar, wordEnds, isLetter, isSeparator, Bool.and_eq_true, Bool.not_eq_true',
    bne_iff_ne, Option.isNone_iff_eq_none, ofMark?_eq_none_iff, List.contains_eq_mem,
    decide_eq_false_iff_not, List.mem_cons, List.not_mem_nil, Bool.or_eq_false_iff,
    beq_eq_false_iff_ne]
  tauto

/-! ## Turns -/

/-- One turn at a line: the tokens that it gives, which are none for a separator, and the rest of
the line. Where the line or its readable part ends there is no further turn. -/
def turn : List Char → Except Cause (Option (List Token × List Char))
  | [] => .ok none
  | c :: rest =>
    if c = '#' then .ok none
    else if c = '-' then
      if rest.head? = some '>' then .ok (some ([arrow], rest.tail))
      else .error (.invalidSymbol "-")
    else
      match ofMark? c with
      | some mark => .ok (some ([mark], rest))
      | none =>
        if isSeparator c then .ok (some ([], rest))
        else .ok (some ([word ((c :: rest).takeWhile isWordChar)],
          (c :: rest).dropWhile isWordChar))

/-- A turn at a line that is `piece` and then `rest` takes the piece and gives the tokens. -/
inductive Takes : List Char → List Token → List Char → Prop where
  | mark {c : Char} {mark : Token} {rest : List Char} : ofMark? c = some mark →
      Takes [c] [mark] rest
  | arrow {rest : List Char} : Takes ['-', '>'] [arrow] rest
  | separator {c : Char} {rest : List Char} : isSeparator c = true → Takes [c] [] rest
  | word {letters rest : List Char} : letters ≠ [] → (∀ c ∈ letters, isLetter c = true) →
      (∀ c ∈ rest.head?, isLetter c = false) → Takes letters [word letters] rest

/-- The part of a line before its comment. -/
def uncommented (line : List Char) : List Char := line.takeWhile (· != '#')

/-- **What a turn can do:** there is none before a comment, it fails at a dash without its arrow
head, or it takes a piece off the line. -/
theorem turn_cases (line : List Char) :
    (turn line = .ok none ∧ uncommented line = []) ∨
      (∃ rest, line = '-' :: rest ∧ rest.head? ≠ some '>' ∧
        turn line = .error (.invalidSymbol "-")) ∨
      ∃ piece taken rest, line = piece ++ rest ∧ Takes piece taken rest ∧
        turn line = .ok (some (taken, rest)) := by
  cases line with
  | nil => exact .inl ⟨rfl, rfl⟩
  | cons c rest =>
    by_cases hhash : c = '#'
    · subst hhash
      exact .inl ⟨rfl, rfl⟩
    by_cases hdash : c = '-'
    · subst hdash
      by_cases hhead : rest.head? = some '>'
      · obtain ⟨rest, rfl⟩ := List.head?_eq_some_iff.1 hhead
        exact .inr (.inr ⟨['-', '>'], [.arrow], rest, rfl, .arrow, rfl⟩)
      · have hturn : turn ('-' :: rest) = .error (.invalidSymbol "-") := by simp [turn, hhead]
        exact .inr (.inl ⟨rest, rfl, hhead, hturn⟩)
    cases hmark : ofMark? c with
    | some mark =>
      have hturn : turn (c :: rest) = .ok (some ([mark], rest)) := by
        simp [turn, hhash, hdash, hmark]
      exact .inr (.inr ⟨[c], [mark], rest, rfl, .mark hmark, hturn⟩)
    | none =>
      by_cases hsep : isSeparator c = true
      · have hturn : turn (c :: rest) = .ok (some ([], rest)) := by
          simp [turn, hhash, hdash, hmark, hsep]
        exact .inr (.inr ⟨[c], [], rest, rfl, .separator hsep, hturn⟩)
      · -- No other kind of turn starts with this character, so it is itself taken into the word.
        have hletter := isLetter_of_ne hmark hsep hhash hdash
        have hturn : turn (c :: rest) = .ok (some ([word ((c :: rest).takeWhile isLetter)],
            (c :: rest).dropWhile isLetter)) := by
          simp [turn, hhash, hdash, hmark, hsep, funext isWordChar_eq_isLetter]
        have hne : (c :: rest).takeWhile isLetter ≠ [] := by
          rw [List.takeWhile_cons_of_pos hletter]
          exact List.cons_ne_nil _ _
        have hend : ∀ d ∈ ((c :: rest).dropWhile isLetter).head?, isLetter d = false := by
          intro d hd
          have hstop := List.head?_dropWhile_not isLetter (c :: rest)
          rwa [Option.mem_def.1 hd] at hstop
        have hall : ∀ d ∈ (c :: rest).takeWhile isLetter, isLetter d = true := fun d hd =>
          List.all_eq_true.1 (List.all_takeWhile) d hd
        exact .inr (.inr ⟨_, _, _, List.takeWhile_append_dropWhile.symm, .word hne hall hend,
          hturn⟩)

theorem takes_of_turn {line rest : List Char} {taken : List Token}
    (h : turn line = .ok (some (taken, rest))) :
    ∃ piece, line = piece ++ rest ∧ Takes piece taken rest := by
  rcases turn_cases line with ⟨hturn, -⟩ | ⟨_, -, -, hturn⟩ | ⟨piece, _, _, hline, htakes, hturn⟩
  · rw [hturn] at h
    cases h
  · rw [hturn] at h
    cases h
  · rw [hturn] at h
    cases h
    exact ⟨piece, hline, htakes⟩

namespace Takes

variable {piece rest : List Char} {taken : List Token}

/-- **Every turn takes at least one character.** -/
theorem ne_nil (h : Takes piece taken rest) : piece ≠ [] := by
  cases h with
  | word hne _ _ => exact hne
  | _ => exact List.cons_ne_nil _ _

theorem length_lt (h : Takes piece taken rest) : rest.length < (piece ++ rest).length := by
  have hpos := List.length_pos_of_ne_nil h.ne_nil
  rw [List.length_append]
  omega

/-- At most one token is given. -/
theorem nil_or_singleton (h : Takes piece taken rest) :
    taken = [] ∨ ∃ token, taken = [token] := by
  cases h with
  | separator _ => exact .inl rfl
  | _ => exact .inr ⟨_, rfl⟩

/-- The same is taken if the line ends earlier. -/
theorem of_isPrefix (h : Takes piece taken rest) {rest' : List Char} (hrest : rest' <+: rest) :
    Takes piece taken rest' := by
  cases h with
  | mark hmark => exact .mark hmark
  | arrow => exact .arrow
  | separator hsep => exact .separator hsep
  | word hne hall hend =>
    refine .word hne hall ?_
    intro c hc
    obtain ⟨later, rfl⟩ := List.head?_eq_some_iff.1 hc
    obtain ⟨more, rfl⟩ := hrest
    exact hend c rfl

theorem eq_of_word {letters : List Char} (h : Takes piece [.word letters] rest) :
    piece = letters ∧ letters ≠ [] ∧ (∀ c ∈ letters, isLetter c = true) ∧
      ∀ c ∈ rest.head?, isLetter c = false := by
  cases h with
  | word hne hall hend => exact ⟨rfl, hne, hall, hend⟩
  | mark hmark =>
    unfold ofMark? at hmark
    split at hmark <;> cases hmark

/-- A piece is an arrow in its longer spelling, or it has neither dash nor comment. -/
theorem arrow_or_plain (h : Takes piece taken rest) :
    piece = ['-', '>'] ∧ taken = [.arrow] ∨ ∀ c ∈ piece, c ≠ '#' ∧ c ≠ '-' := by
  cases h with
  | arrow => exact .inl ⟨rfl, rfl⟩
  | mark hmark =>
    right
    intro c hc
    obtain rfl := List.mem_singleton.1 hc
    constructor <;> rintro rfl <;> cases hmark
  | separator hsep =>
    right
    intro c hc
    obtain rfl := List.mem_singleton.1 hc
    constructor <;> rintro rfl <;> cases hsep
  | word _ hall _ =>
    right
    intro c hc
    have hletter := hall c hc
    constructor <;> rintro rfl <;> cases hletter

theorem hash_notMem (h : Takes piece taken rest) : '#' ∉ piece := by
  rcases h.arrow_or_plain with ⟨rfl, -⟩ | hplain
  · decide
  · exact fun hmem => (hplain '#' hmem).1 rfl

theorem isSeparator_of_nil (h : Takes piece [] rest) : ∀ c ∈ piece, isSeparator c = true := by
  cases h with
  | separator hsep =>
    intro c hc
    rw [List.mem_singleton.1 hc]
    exact hsep

end Takes

/-- **Induction by turns,** from the rest of a line to the line. -/
@[elab_as_elim]
theorem turn_induction {P : List Char → Prop}
    (stop : ∀ line, turn line = .ok none → uncommented line = [] → P line)
    (fail : ∀ rest, turn ('-' :: rest) = .error (.invalidSymbol "-") → rest.head? ≠ some '>' →
      P ('-' :: rest))
    (next : ∀ piece taken rest, turn (piece ++ rest) = .ok (some (taken, rest)) →
      Takes piece taken rest → P rest → P (piece ++ rest))
    (line : List Char) : P line := by
  induction hn : line.length using Nat.strong_induction_on generalizing line with
  | _ n ih =>
    rcases turn_cases line with ⟨hturn, hline⟩ | ⟨rest, rfl, hhead, hturn⟩ |
      ⟨piece, taken, rest, rfl, htakes, hturn⟩
    · exact stop line hturn hline
    · exact fail rest hturn hhead
    · have hlt := htakes.length_lt
      exact next piece taken rest hturn htakes (ih rest.length (by omega) rest rfl)

/-! ## The scanner takes these turns -/

theorem scanFrom_of_uncommented_eq_nil {line : List Char} (h : uncommented line = [])
    (pending : List Char) : scanFrom pending line = .ok (flush pending []) := by
  cases line with
  | nil => rfl
  | cons c rest =>
    by_cases hhash : c = '#'
    · subst hhash
      rfl
    · simp [uncommented, hhash] at h

theorem scan_of_uncommented_eq_nil {line : List Char} (h : uncommented line = []) :
    scan line = .ok [] :=
  scanFrom_of_uncommented_eq_nil h []

/-- A word that is held back ends where no letter follows. -/
theorem scanFrom_of_not_isLetter {rest : List Char} (h : ∀ c ∈ rest.head?, isLetter c = false)
    (pending : List Char) :
    scanFrom pending rest = (do let tokens ← scan rest; return flush pending tokens) := by
  rcases turn_cases rest with ⟨-, hrest⟩ | ⟨later, rfl, hhead, -⟩ |
    ⟨piece, taken, later, rfl, htakes, -⟩
  · rw [scan_of_uncommented_eq_nil hrest, scanFrom_of_uncommented_eq_nil hrest]
    rfl
  · rw [scan, scanFrom_dash hhead, scanFrom_dash hhead]
    rfl
  · cases htakes with
    | mark hmark =>
      rw [scan, List.singleton_append, scanFrom_mark hmark, scanFrom_mark hmark]
      cases scanFrom [] later <;> rfl
    | arrow =>
      rw [scan, List.cons_append, List.singleton_append, scanFrom_arrow, scanFrom_arrow]
      cases scanFrom [] later <;> rfl
    | separator hsep =>
      rw [scan, List.singleton_append, scanFrom_separator hsep, scanFrom_separator hsep]
      cases scanFrom [] later <;> rfl
    | word hne hall _ =>
      obtain ⟨c, letters, rfl⟩ := List.exists_cons_of_ne_nil hne
      have hletter := hall c List.mem_cons_self
      rw [h c rfl] at hletter
      cases hletter

theorem scan_of_takes {piece rest : List Char} {taken : List Token}
    (h : Takes piece taken rest) :
    scan (piece ++ rest) = (do let tokens ← scan rest; return taken ++ tokens) := by
  cases h with
  | mark hmark => exact scanFrom_mark hmark [] rest
  | arrow => rfl
  | separator hsep => exact scanFrom_separator hsep [] rest
  | word hne hall hend =>
    have hflush : ∀ tokens, flush (piece.reverse ++ []) tokens = .word piece :: tokens := by
      intro tokens
      simp [flush, hne]
    rw [scan, scanFrom_letters hall, scanFrom_of_not_isLetter hend]
    simp only [hflush]
    rfl

/-- Induction by turns over the readable lines and their tokens. -/
@[elab_as_elim]
theorem scan_induction {P : List Char → List Token → Prop}
    (stop : ∀ line, uncommented line = [] → P line [])
    (next : ∀ piece taken rest later, Takes piece taken rest → scan rest = .ok later →
      P rest later → P (piece ++ rest) (taken ++ later))
    {line : List Char} {tokens : List Token} (h : scan line = .ok tokens) : P line tokens := by
  induction line using turn_induction generalizing tokens with
  | stop line _ hline =>
    rw [scan_of_uncommented_eq_nil hline] at h
    obtain rfl := Except.ok.inj h
    exact stop line hline
  | fail rest _ hhead =>
    rw [scan, scanFrom_dash hhead] at h
    cases h
  | next piece taken rest _ htakes ih =>
    rw [scan_of_takes htakes] at h
    obtain ⟨later, hlater, h⟩ := bind_eq_ok h
    obtain rfl := Except.ok.inj h
    exact next piece taken rest later htakes hlater (ih hlater)

/-- Turn after turn, `n` pieces are taken off the line, and then it ends or cannot be read. -/
inductive Reads : Nat → List Char → Except Cause (List Token) → Prop where
  | stop {line : List Char} : turn line = .ok none → Reads 0 line (.ok [])
  | fail {line : List Char} {cause : Cause} : turn line = .error cause →
      Reads 0 line (.error cause)
  | next {n : Nat} {line rest : List Char} {taken : List Token}
      {outcome : Except Cause (List Token)} : turn line = .ok (some (taken, rest)) →
      Reads n rest outcome → Reads (n + 1) line (do let tokens ← outcome; return taken ++ tokens)

/-- **The turns come to an end,** after at most as many as there are characters, and give what the
scanner gives. -/
theorem exists_reads (line : List Char) : ∃ n ≤ line.length, Reads n line (scan line) := by
  induction line using turn_induction with
  | stop line hturn hline =>
    rw [scan_of_uncommented_eq_nil hline]
    exact ⟨0, Nat.zero_le _, .stop hturn⟩
  | fail rest hturn hhead =>
    rw [scan, scanFrom_dash hhead]
    exact ⟨0, Nat.zero_le _, .fail hturn⟩
  | next piece taken rest hturn htakes ih =>
    obtain ⟨n, hn, hreads⟩ := ih
    have hlt := htakes.length_lt
    rw [scan_of_takes htakes]
    exact ⟨n + 1, by omega, .next hturn hreads⟩

/-! ## Comments -/

theorem uncommented_append {piece : List Char} (h : '#' ∉ piece) (rest : List Char) :
    uncommented (piece ++ rest) = piece ++ uncommented rest := by
  refine List.takeWhile_append_of_pos ?_
  intro c hc
  rw [bne_iff_ne]
  rintro rfl
  exact h hc

theorem uncommented_isPrefix (line : List Char) : uncommented line <+: line :=
  List.takeWhile_prefix _

theorem scan_uncommented (line : List Char) : scan (uncommented line) = scan line := by
  have hline : uncommented line ++ line.dropWhile (· != '#') = line :=
    List.takeWhile_append_dropWhile
  cases hcomment : line.dropWhile (· != '#') with
  | nil =>
    rw [hcomment, List.append_nil] at hline
    rw [hline]
  | cons c comment =>
    have hstop := List.head?_dropWhile_not (· != '#') line
    rw [hcomment] at hstop hline
    obtain rfl : c = '#' := by simpa using hstop
    have hscan := scanFrom_append_comment [] (uncommented line) comment
    rw [hline] at hscan
    exact hscan.symm

/-! ## Dashes -/

/-- Some dash is not directly followed by its arrow head. -/
def LoneDash (line : List Char) : Prop :=
  ∃ before after, line = before ++ '-' :: after ∧ after.head? ≠ some '>'

theorem loneDash_cons {c : Char} {rest : List Char} :
    LoneDash (c :: rest) ↔ c = '-' ∧ rest.head? ≠ some '>' ∨ LoneDash rest := by
  constructor
  · rintro ⟨before, after, hline, hhead⟩
    cases before with
    | nil =>
      obtain ⟨rfl, rfl⟩ := List.cons.inj hline
      exact .inl ⟨rfl, hhead⟩
    | cons d before =>
      obtain ⟨-, rfl⟩ := List.cons.inj hline
      exact .inr ⟨before, after, rfl, hhead⟩
  · rintro (⟨rfl, hhead⟩ | ⟨before, after, rfl, hhead⟩)
    · exact ⟨[], rest, rfl, hhead⟩
    · exact ⟨c :: before, after, rfl, hhead⟩

theorem loneDash_append {piece : List Char} (h : '-' ∉ piece) (rest : List Char) :
    LoneDash (piece ++ rest) ↔ LoneDash rest := by
  induction piece with
  | nil => rfl
  | cons c piece ih =>
    rw [List.mem_cons, not_or] at h
    rw [List.cons_append, loneDash_cons, ih h.2]
    constructor
    · rintro (⟨rfl, -⟩ | hrest)
      · exact absurd rfl h.1
      · exact hrest
    · exact .inr

theorem loneDash_of_takes {piece rest : List Char} {taken : List Token}
    (h : Takes piece taken rest) (line : List Char) : LoneDash (piece ++ line) ↔ LoneDash line := by
  rcases h.arrow_or_plain with ⟨rfl, -⟩ | hplain
  · rw [List.cons_append, List.singleton_append, loneDash_cons, loneDash_cons]
    simp
  · exact loneDash_append (fun hmem => (hplain '-' hmem).2 rfl) line

/-- **A line is unreadable exactly if a lone dash stands before its comment.** -/
theorem scan_eq_error_iff (line : List Char) (cause : Cause) :
    scan line = .error cause ↔ cause = .invalidSymbol "-" ∧ LoneDash (uncommented line) := by
  induction line using turn_induction with
  | stop line _ hline =>
    rw [scan_of_uncommented_eq_nil hline, hline]
    constructor
    · intro h
      cases h
    · rintro ⟨-, before, after, hnil, -⟩
      simp at hnil
  | fail rest _ hhead =>
    have hlone : LoneDash (uncommented ('-' :: rest)) := by
      refine ⟨[], uncommented rest, rfl, ?_⟩
      intro h
      -- What starts the part before the comment starts the rest.
      obtain ⟨later, hlater⟩ := List.head?_eq_some_iff.1 h
      obtain ⟨more, hmore⟩ := uncommented_isPrefix rest
      rw [← hmore, hlater] at hhead
      exact hhead rfl
    rw [scan, scanFrom_dash hhead]
    constructor
    · intro h
      exact ⟨(Except.error.inj h).symm, hlone⟩
    · rintro ⟨rfl, -⟩
      rfl
  | next piece taken rest _ htakes ih =>
    rw [uncommented_append htakes.hash_notMem, loneDash_of_takes htakes, ← ih,
      scan_of_takes htakes]
    cases scan rest with
    | error cause' => exact Iff.rfl
    | ok tokens =>
      constructor
      · intro h
        cases h
      · intro h
        cases h

/-- Without dashes a line is readable. -/
theorem exists_scan {line : List Char} (hdash : '-' ∉ line) : ∃ tokens, scan line = .ok tokens := by
  cases hscan : scan line with
  | ok tokens => exact ⟨tokens, rfl⟩
  | error cause =>
    obtain ⟨-, before, after, hline, -⟩ := (scan_eq_error_iff line cause).1 hscan
    have hmem : '-' ∈ uncommented line := by
      rw [hline]
      simp
    exact absurd ((uncommented_isPrefix line).subset hmem) hdash

/-! ## The text of the tokens -/

/-- The line with all arrows in their one-character spelling. -/
def arrowed : List Char → List Char
  | [] => []
  | '-' :: '>' :: rest => '→' :: arrowed rest
  | c :: rest => c :: arrowed rest

theorem arrowed_append {piece : List Char} (h : '-' ∉ piece) (rest : List Char) :
    arrowed (piece ++ rest) = piece ++ arrowed rest := by
  induction piece with
  | nil => rfl
  | cons c piece ih =>
    rw [List.mem_cons, not_or] at h
    rw [List.cons_append, arrowed.eq_3 c _ (fun _ hc _ => h.1 hc.symm), ih h.2, List.cons_append]

/-- What tokens can show of a line: arrows and marks for the empty form in one spelling each, and
no separators. -/
def shownChars (line : List Char) : List Char :=
  ((arrowed line).filter fun c => !isSeparator c).map shownChar

theorem shownChar_of_isLetter {c : Char} (h : isLetter c = true) : shownChar c = c := by
  refine if_neg ?_
  rintro rfl
  cases h

theorem isSeparator_of_isLetter {c : Char} (h : isLetter c = true) : isSeparator c = false := by
  simp only [isLetter, Bool.and_eq_true, Bool.not_eq_true'] at h
  exact h.1.1.2

theorem shownChars_of_takes {piece rest : List Char} {taken : List Token}
    (h : Takes piece taken rest) (line : List Char) :
    shownChars (piece ++ line) = taken.flatMap chars ++ shownChars line := by
  rcases h.arrow_or_plain with ⟨rfl, rfl⟩ | hplain
  · rfl
  · have hpiece : (piece.filter fun c => !isSeparator c).map shownChar = taken.flatMap chars := by
      cases h with
      | mark hmark => simp [isSeparator_of_ofMark? hmark, chars_of_ofMark? hmark]
      | arrow => exact absurd rfl (hplain '-' List.mem_cons_self).2
      | separator hsep => simp [hsep]
      | word _ hall _ =>
        have hkept : (piece.filter fun c => !isSeparator c) = piece :=
          List.filter_eq_self.2 fun c hc => by simp [isSeparator_of_isLetter (hall c hc)]
        have hshown : piece.map shownChar = piece.map id :=
          List.map_congr_left fun c hc => shownChar_of_isLetter (hall c hc)
        rw [hkept, hshown, List.map_id, List.flatMap_singleton, chars]
    have hdash : '-' ∉ piece := fun hmem => (hplain '-' hmem).2 rfl
    rw [shownChars, arrowed_append hdash, List.filter_append, List.map_append, hpiece]
    rfl

/-- **Nothing but separators, the comment and the choice of spelling is lost.** -/
theorem flatMap_chars_of_scan {line : List Char} {tokens : List Token}
    (h : scan line = .ok tokens) : tokens.flatMap chars = shownChars (uncommented line) := by
  refine scan_induction ?_ ?_ h
  · intro line hline
    rw [hline]
    rfl
  · intro piece taken rest later htakes _ ih
    rw [uncommented_append htakes.hash_notMem, shownChars_of_takes htakes, List.flatMap_append, ih]

/-- Without dashes and comments only separators are lost, and the choice of spelling. -/
theorem flatMap_chars_of_plain {line : List Char} {tokens : List Token} (hhash : '#' ∉ line)
    (hdash : '-' ∉ line) (h : scan line = .ok tokens) :
    tokens.flatMap chars = (line.filter fun c => !isSeparator c).map shownChar := by
  have hcomment : uncommented line = line := by
    simpa [uncommented] using uncommented_append hhash []
  have harrow : arrowed line = line := by simpa [arrowed] using arrowed_append hdash []
  rw [flatMap_chars_of_scan h, hcomment, shownChars, harrow]

theorem join_map_render (tokens : List Token) :
    String.join (tokens.map render) = String.ofList (tokens.flatMap chars) := by
  induction tokens with
  | nil => rfl
  | cons token tokens ih => simp [ih, render]

/-! ## Words -/

/-- Words are not empty. -/
theorem ne_nil_of_mem_scan {line : List Char} {tokens : List Token} (h : scan line = .ok tokens) :
    ∀ letters, .word letters ∈ tokens → letters ≠ [] := by
  refine scan_induction ?_ ?_ h
  · intro line _ letters hword
    cases hword
  · intro piece taken rest later htakes _ ih letters hword
    rcases List.mem_append.1 hword with htaken | hlater
    · rcases htakes.nil_or_singleton with rfl | ⟨token, rfl⟩
      · cases htaken
      · obtain rfl := List.mem_singleton.1 htaken
        exact htakes.eq_of_word.2.1
    · exact ih letters hlater

/-- Before the first word of a line, if no mark comes before it, there are only separators. -/
theorem exists_gap_of_word {line : List Char} {tokens : List Token} (h : scan line = .ok tokens) :
    ∀ v after, tokens = .word v :: after → ∃ gap right, uncommented line = gap ++ v ++ right ∧
      (∀ c ∈ gap, isSeparator c = true) ∧ scan right = .ok after := by
  refine scan_induction ?_ ?_ h
  · intro line _ v after htokens
    cases htokens
  · intro piece taken rest later htakes hlater ih v after htokens
    rcases htakes.nil_or_singleton with rfl | ⟨token, rfl⟩
    · obtain ⟨gap, right, hrest, hgap, hright⟩ := ih v after htokens
      have hpiece := htakes.isSeparator_of_nil
      refine ⟨piece ++ gap, right, ?_, ?_, hright⟩
      · rw [uncommented_append htakes.hash_notMem, hrest]
        simp
      · intro c hc
        exact (List.mem_append.1 hc).elim (hpiece c) (hgap c)
    · obtain ⟨rfl, rfl⟩ := List.cons.inj htokens
      obtain ⟨rfl, -⟩ := htakes.eq_of_word
      refine ⟨[], uncommented rest, ?_, ?_, ?_⟩
      · rw [uncommented_append htakes.hash_notMem]
        rfl
      · intro c hc
        cases hc
      · rw [scan_uncommented, hlater]
        rfl

/-- Separators hold the words `u` and `v` apart in the line; the tokens before the two words are
those of what stands on their left, and the tokens after them those of what stands on their
right. -/
def HeldApart (line : List Char) (before : List Token) (u v : List Char) (after : List Token) :
    Prop :=
  ∃ left gap right, line = left ++ u ++ gap ++ v ++ right ∧ gap ≠ [] ∧
    (∀ c ∈ gap, isSeparator c = true) ∧ scan left = .ok before ∧ scan right = .ok after

/-- What is held apart in the rest of a line is held apart in the line. -/
theorem HeldApart.of_takes {piece rest u v : List Char} {taken before after : List Token}
    (htakes : Takes piece taken rest) (h : HeldApart (uncommented rest) before u v after) :
    HeldApart (uncommented (piece ++ rest)) (taken ++ before) u v after := by
  obtain ⟨left, gap, right, hrest, hne, hgap, hleft, hright⟩ := h
  have hprefix : left <+: rest := by
    refine List.IsPrefix.trans ⟨u ++ gap ++ v ++ right, ?_⟩ (uncommented_isPrefix rest)
    rw [hrest]
    simp
  have hscan := scan_of_takes (htakes.of_isPrefix hprefix)
  rw [hleft] at hscan
  refine ⟨piece ++ left, gap, right, ?_, hne, hgap, hscan, hright⟩
  rw [uncommented_append htakes.hash_notMem, hrest]
  simp

/-- A word that is taken is held apart from a word that the rest starts with. -/
theorem heldApart_of_word {u v rest : List Char} {after : List Token}
    (htakes : Takes u [.word u] rest) (h : scan rest = .ok (.word v :: after)) :
    HeldApart (uncommented (u ++ rest)) [] u v after := by
  obtain ⟨gap, right, hrest, hgap, hright⟩ := exists_gap_of_word h v after rfl
  refine ⟨[], gap, right, ?_, ?_, hgap, rfl, hright⟩
  · rw [uncommented_append htakes.hash_notMem, hrest]
    simp
  · rintro rfl
    -- The second word would go on where the first one ended.
    have hne := ne_nil_of_mem_scan h v List.mem_cons_self
    obtain ⟨c, letters, rfl⟩ := List.exists_cons_of_ne_nil hne
    have hletter := isLetter_of_mem_scan h List.mem_cons_self c List.mem_cons_self
    obtain ⟨comment, hcomment⟩ := uncommented_isPrefix rest
    have hhead : c ∈ rest.head? := by
      rw [← hcomment, hrest]
      rfl
    obtain ⟨-, -, -, hend⟩ := htakes.eq_of_word
    rw [hend c hhead] at hletter
    cases hletter

/-- **Only separators make one word into two.** -/
theorem heldApart_of_scan {line : List Char} {tokens : List Token} (h : scan line = .ok tokens) :
    ∀ before u v after, tokens = before ++ .word u :: .word v :: after →
      HeldApart (uncommented line) before u v after := by
  refine scan_induction ?_ ?_ h
  · intro line _ before u v after htokens
    simp at htokens
  · intro piece taken rest later htakes hlater ih before u v after htokens
    rcases htakes.nil_or_singleton with rfl | ⟨token, rfl⟩
    · exact (ih before u v after htokens).of_takes htakes
    · cases before with
      | cons token' before =>
        obtain ⟨rfl, hbefore⟩ := List.cons.inj htokens
        exact (ih before u v after hbefore).of_takes htakes
      | nil =>
        -- The turn takes the first of the two words.
        obtain ⟨rfl, rfl⟩ := List.cons.inj htokens
        obtain ⟨rfl, -⟩ := htakes.eq_of_word
        exact heldApart_of_word htakes hlater

/-- **The tokens of a line are faithful to it.** Every turn takes at least one character, and the
turns come to an end with the tokens that the scanner gives. The line is unreadable exactly if some
dash before its comment is no part of an arrow, and then the dash is what is reported. Otherwise
the tokens spell what stands before the comment, without separators and with one spelling for
arrows and marks for the empty form; words are not empty and made of word characters; and two words
stand side by side only where separators hold them apart in the line. -/
theorem scan_faithful (line : List Char) :
    (∀ taken rest, turn line = .ok (some (taken, rest)) →
      ∃ piece, piece ≠ [] ∧ line = piece ++ rest) ∧
    (∃ n ≤ line.length, Reads n line (scan line)) ∧
    (∀ cause, scan line = .error cause ↔
      cause = .invalidSymbol "-" ∧ LoneDash (uncommented line)) ∧
    ∀ tokens, scan line = .ok tokens →
      String.join (tokens.map render) = String.ofList (shownChars (uncommented line)) ∧
      (∀ letters, .word letters ∈ tokens →
        letters ≠ [] ∧ ∀ c ∈ letters, isWordChar c = true) ∧
      ∀ before u v after, tokens = before ++ .word u :: .word v :: after →
        HeldApart (uncommented line) before u v after := by
  refine ⟨?_, exists_reads line, scan_eq_error_iff line, ?_⟩
  · intro taken rest hturn
    obtain ⟨piece, hline, htakes⟩ := takes_of_turn hturn
    exact ⟨piece, htakes.ne_nil, hline⟩
  · intro tokens h
    refine ⟨?_, ?_, heldApart_of_scan h⟩
    · rw [join_map_render, flatMap_chars_of_scan h]
    · intro letters hword
      refine ⟨ne_nil_of_mem_scan h letters hword, ?_⟩
      intro c hc
      rw [isWordChar_eq_isLetter]
      exact isLetter_of_mem_scan h hword c hc

/-- A row with both arrow heads and dashes outside its arrow: the one head is a letter, and the dash
stands in the comment. -/
def arrowRow : List Char := "S -> aB, c>|λ# - x".toList

/-- The words `aB` and `c>` of the row are held apart by a comma and a blank. A comment right after
a dash leaves it lone, whatever stands in the comment. -/
theorem scan_faithful_arrowRow :
    scan arrowRow = .ok [.word ['S'], .arrow, .word ['a', 'B'], .word ['c', '>'], .bar, .epsilon] ∧
      (∃ piece, piece ≠ [] ∧ arrowRow = piece ++ arrowRow.drop 1) ∧
      ¬ LoneDash (uncommented arrowRow) ∧
      String.join ([.word ['S'], .arrow, .word ['a', 'B'], .word ['c', '>'], .bar, .epsilon].map
        render) = "S→aBc>|ε" ∧
      HeldApart (uncommented arrowRow) [.word ['S'], .arrow] ['a', 'B'] ['c', '>']
        [.bar, .epsilon] ∧
      scan "S -#> a".toList = .error (.invalidSymbol "-") := by
  obtain ⟨hpieces, -, herror, htokens⟩ := scan_faithful arrowRow
  obtain ⟨-, -, hlone, -⟩ := scan_faithful "S -#> a".toList
  have hscan : scan arrowRow =
      .ok [.word ['S'], .arrow, .word ['a', 'B'], .word ['c', '>'], .bar, .epsilon] := by rfl
  obtain ⟨hshown, -, hgap⟩ := htokens _ hscan
  refine ⟨hscan, hpieces [.word ['S']] _ (by rfl), ?_, ?_, ?_, ?_⟩
  · intro hdash
    have hfails := (herror _).2 ⟨rfl, hdash⟩
    rw [hscan] at hfails
    cases hfails
  · rw [hshown]
    rfl
  · exact hgap [.word ['S'], .arrow] ['a', 'B'] ['c', '>'] [.bar, .epsilon] rfl
  · refine (hlone _).2 ⟨rfl, ['S', ' '], [], ?_, ?_⟩
    · rfl
    · simp

end Token

end PhraseStructure.Source
