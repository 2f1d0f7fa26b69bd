import PhraseStructure.Proofs.Turns

/-!
# Right-hand sides, character by character

The right-hand side of a row is cut into words and marks, the tokens are divided at the bars, and
the symbols of each part are run together. The same comes out if its characters are read one by one
(`readChars`): separators and marks for the empty form are passed over, a bar starts the next
alternative, and every other character is a symbol or is refused. Since words and parts are gone
through in order, it is also the same character that is refused first.

* `alternativesOfTokens_eq_readChars`: reading tokens is reading characters.
* `readChars_of_misfit`, `readChars_of_no_misfit`: what reading the characters gives.
* `row_read_by_characters`: the same for a whole row in the block.
-/

namespace PhraseStructure.Source

/-- The character means nothing on a right-hand side: it separates, or stands for the empty
form. -/
def isSkipped (c : Char) : Bool := Token.isSeparator c || c == 'ε' || c == 'λ'

/-- Why a character is refused on a right-hand side, if it is none of those that may stand there. -/
def refusal (c : Char) : Cause :=
  if c ∈ ['=', '\x7b', '\x7d', '→'] then .unexpectedToken c.toString
  else .invalidSymbol c.toString

/-- The first character of a right-hand side that may not stand there. -/
def misfit? (rhs : List Char) : Option Char :=
  rhs.find? fun c => !isSkipped c && c != '|' && !c.isAlphanum

/-- The symbols of what is not skipped in a part of a right-hand side. -/
def pieceSymbols (piece : List Char) : List (Option Symbol) :=
  (piece.filter fun c => !isSkipped c).map Symbol.ofChar?

/-! ## Reading characters -/

/-- Puts symbols in front of the first of some alternatives. -/
def prepend (form : Except Cause Form) (forms : Except Cause (List Form)) :
    Except Cause (List Form) := do
  let form ← form
  let forms ← forms
  return forms.modifyHead (form ++ ·)

/-- The alternatives of a right-hand side, read character by character. -/
def readChars : List Char → Except Cause (List Form)
  | [] => .ok [[]]
  | c :: rest =>
    if isSkipped c then readChars rest
    else if c = '|' then (readChars rest).map ([] :: ·)
    else
      match Symbol.ofChar? c with
      | some s => prepend (.ok [s]) (readChars rest)
      | none => .error (refusal c)

section Characters

variable {c : Char} {rest : List Char}

theorem readChars_skipped (h : isSkipped c = true) : readChars (c :: rest) = readChars rest := by
  rw [readChars, if_pos h]

theorem readChars_bar : readChars ('|' :: rest) = (readChars rest).map ([] :: ·) := rfl

/-- A character that may not be skipped and is no bar is read as a symbol. -/
theorem readChars_cons (hskip : isSkipped c = false) (hbar : c ≠ '|') :
    readChars (c :: rest) =
      match Symbol.ofChar? c with
      | some s => prepend (.ok [s]) (readChars rest)
      | none => .error (refusal c) := by
  rw [readChars, hskip, if_neg Bool.false_ne_true, if_neg hbar]

theorem misfit?_cons_of_skipped (h : isSkipped c = true) : misfit? (c :: rest) = misfit? rest := by
  simp [misfit?, h]

theorem misfit?_bar : misfit? ('|' :: rest) = misfit? rest := by
  simp [misfit?]

theorem misfit?_cons_of_symbol {s : Symbol} (h : Symbol.ofChar? c = some s) :
    misfit? (c :: rest) = misfit? rest := by
  simp [misfit?, exists_ofChar?_iff.1 ⟨s, h⟩]

theorem misfit?_cons_of_misfit (hskip : isSkipped c = false) (hbar : c ≠ '|')
    (h : Symbol.ofChar? c = none) : misfit? (c :: rest) = some c := by
  have halphanum : c.isAlphanum = false := by
    rw [← Bool.not_eq_true, ← exists_ofChar?_iff, h]
    simp
  simp [misfit?, hskip, hbar, halphanum]

end Characters

/-- **The first misfit is what is refused.** -/
theorem readChars_of_misfit {rhs : List Char} {c : Char} (h : misfit? rhs = some c) :
    readChars rhs = .error (refusal c) := by
  induction rhs with
  | nil => cases h
  | cons d rest ih =>
    cases hskip : isSkipped d with
    | true =>
      rw [misfit?_cons_of_skipped hskip] at h
      rw [readChars_skipped hskip, ih h]
    | false =>
      by_cases hbar : d = '|'
      · subst hbar
        rw [misfit?_bar] at h
        rw [readChars_bar, ih h]
        rfl
      · rw [readChars_cons hskip hbar]
        cases hsymbol : Symbol.ofChar? d with
        | some s =>
          rw [misfit?_cons_of_symbol hsymbol] at h
          simp only [ih h]
          rfl
        | none =>
          rw [misfit?_cons_of_misfit hskip hbar hsymbol] at h
          rw [Option.some.inj h]

theorem pieceSymbols_cons_of_skipped {c : Char} (h : isSkipped c = true) (piece : List Char) :
    pieceSymbols (c :: piece) = pieceSymbols piece := by
  rw [pieceSymbols, List.filter_cons_of_neg (by simp [h]), pieceSymbols]

theorem pieceSymbols_cons {c : Char} (h : isSkipped c = false) (piece : List Char) :
    pieceSymbols (c :: piece) = Symbol.ofChar? c :: pieceSymbols piece := by
  rw [pieceSymbols, List.filter_cons_of_pos (by simp [h]), pieceSymbols, List.map_cons]

/-- **Without a misfit** the parts between the bars are the alternatives. -/
theorem readChars_of_no_misfit {rhs : List Char} (h : misfit? rhs = none) :
    ∃ forms, readChars rhs = .ok forms ∧
      forms.map (List.map some) = (rhs.splitOn '|').map pieceSymbols := by
  induction rhs with
  | nil => exact ⟨[[]], rfl, rfl⟩
  | cons c rest ih =>
    -- What stands before the first bar of `rest` is the part that `c` may belong to.
    obtain ⟨piece, pieces, hsplit⟩ := List.exists_cons_of_ne_nil (List.splitOn_ne_nil '|' rest)
    rw [List.splitOn_cons_eq_if_modifyHead]
    cases hskip : isSkipped c with
    | true =>
      have hbar : c ≠ '|' := by
        rintro rfl
        cases hskip
      rw [misfit?_cons_of_skipped hskip] at h
      obtain ⟨forms, hforms, hpieces⟩ := ih h
      rw [readChars_skipped hskip, if_neg (by simpa using hbar), hsplit, List.modifyHead_cons,
        List.map_cons, pieceSymbols_cons_of_skipped hskip, ← List.map_cons, ← hsplit]
      exact ⟨forms, hforms, hpieces⟩
    | false =>
      by_cases hbar : c = '|'
      · subst hbar
        rw [misfit?_bar] at h
        obtain ⟨forms, hforms, hpieces⟩ := ih h
        rw [readChars_bar, hforms, if_pos (by simp)]
        exact ⟨[] :: forms, rfl, congrArg ([] :: ·) hpieces⟩
      · rw [readChars_cons hskip hbar, if_neg (by simpa using hbar), hsplit, List.modifyHead_cons,
          List.map_cons, pieceSymbols_cons hskip]
        cases hsymbol : Symbol.ofChar? c with
        | some s =>
          rw [misfit?_cons_of_symbol hsymbol] at h
          obtain ⟨forms, hforms, hpieces⟩ := ih h
          rw [hsplit] at hpieces
          obtain ⟨form, others, rfl, hform, hothers⟩ := List.map_eq_cons_iff.1 hpieces
          refine ⟨(s :: form) :: others, ?_, ?_⟩
          · simp only [hforms]
            rfl
          · rw [List.map_cons, List.map_cons, hform, hothers]
        | none =>
          rw [misfit?_cons_of_misfit hskip hbar hsymbol] at h
          cases h

/-! ## Reading tokens -/

theorem prepend_nil (forms : Except Cause (List Form)) : prepend (.ok []) forms = forms := by
  cases forms with
  | error cause => rfl
  | ok forms => cases forms <;> rfl

theorem prepend_prepend (form form' : Except Cause Form) (forms : Except Cause (List Form)) :
    prepend form (prepend form' forms) =
      prepend (do let symbols ← form; let symbols' ← form'; return symbols ++ symbols') forms := by
  cases form with
  | error cause => rfl
  | ok symbols =>
    cases form' with
    | error cause => rfl
    | ok symbols' =>
      cases forms with
      | error cause => rfl
      | ok forms =>
        cases forms with
        | nil => rfl
        | cons first others =>
          show Except.ok ((symbols ++ (symbols' ++ first)) :: others) = _
          rw [← List.append_assoc]
          rfl

theorem alternativesOfTokens_bar (tokens : List Token) :
    alternativesOfTokens (.bar :: tokens) = (alternativesOfTokens tokens).map ([] :: ·) := by
  rw [alternativesOfTokens, List.splitOn_cons_eq_if_modifyHead, if_pos (by simp), List.mapM_cons]
  show (alternativesOfTokens tokens >>= fun forms => pure ([] :: forms)) = _
  cases alternativesOfTokens tokens <;> rfl

/-- A token that is no bar adds its symbols to the first alternative. -/
theorem alternativesOfTokens_cons {token : Token} (h : token ≠ .bar) (tokens : List Token) :
    alternativesOfTokens (token :: tokens) =
      prepend (formOfToken token) (alternativesOfTokens tokens) := by
  obtain ⟨part, parts, hsplit⟩ := List.exists_cons_of_ne_nil (List.splitOn_ne_nil Token.bar tokens)
  rw [alternativesOfTokens, List.splitOn_cons_eq_if_modifyHead, if_neg (by simpa using h),
    alternativesOfTokens, hsplit, List.modifyHead_cons, List.mapM_cons, List.mapM_cons,
    formOfTokens, List.mapM_cons, formOfTokens]
  cases formOfToken token with
  | error cause => rfl
  | ok form =>
    cases part.mapM formOfToken with
    | error cause => rfl
    | ok forms => cases parts.mapM formOfTokens <;> rfl

theorem alternativesOfTokens_flush (pending : List Char) (tokens : List Token) :
    alternativesOfTokens (Token.flush pending tokens) =
      prepend (pending.reverse.mapM symbolOfChar) (alternativesOfTokens tokens) := by
  unfold Token.flush
  split
  · next hempty =>
    rw [List.isEmpty_iff.1 hempty]
    exact (prepend_nil _).symm
  · exact alternativesOfTokens_cons (by simp) tokens

/-- A letter is read as the symbol it is, or is no valid symbol. -/
theorem readChars_letter {c : Char} (h : Token.isLetter c = true) (rest : List Char) :
    readChars (c :: rest) = prepend ([c].mapM symbolOfChar) (readChars rest) := by
  simp only [Token.isLetter, Bool.and_eq_true, Bool.not_eq_true', Option.isNone_iff_eq_none] at h
  obtain ⟨⟨⟨hmark, hsep⟩, -⟩, -⟩ := h
  have hne : ∀ {d : Char} {mark : Token}, Token.ofMark? d = some mark → c ≠ d := by
    rintro d mark hd rfl
    rw [hmark] at hd
    cases hd
  have hskip : isSkipped c = false := by
    have hepsilon : c ≠ 'ε' := hne rfl
    have hlambda : c ≠ 'λ' := hne rfl
    simp [isSkipped, hsep, hepsilon, hlambda]
  have hrefusal : refusal c = .invalidSymbol c.toString := by
    refine if_neg ?_
    simp only [List.mem_cons, List.not_mem_nil, or_false, not_or]
    exact ⟨hne rfl, hne rfl, hne rfl, hne rfl⟩
  rw [readChars_cons hskip (hne rfl), hrefusal, List.mapM_cons, symbolOfChar]
  cases Symbol.ofChar? c <;> rfl

/-- A mark is skipped, starts the next alternative, or is refused. -/
theorem readChars_mark {c : Char} {mark : Token} (h : Token.ofMark? c = some mark)
    {rest : List Char} {tokens : List Token}
    (hrest : alternativesOfTokens tokens = readChars rest) :
    alternativesOfTokens (mark :: tokens) = readChars (c :: rest) := by
  have hepsilon : alternativesOfTokens (.epsilon :: tokens) = readChars rest := by
    rw [alternativesOfTokens_cons (by simp), formOfToken, prepend_nil, hrest]
  unfold Token.ofMark? at h
  split at h
  case h_2 =>
    obtain rfl := Option.some.inj h
    rw [alternativesOfTokens_bar, hrest, readChars_bar]
  case h_6 =>
    obtain rfl := Option.some.inj h
    rw [hepsilon, readChars_skipped rfl]
  case h_7 =>
    obtain rfl := Option.some.inj h
    rw [hepsilon, readChars_skipped rfl]
  case h_8 => cases h
  all_goals
    obtain rfl := Option.some.inj h
    rw [alternativesOfTokens_cons (by simp)]
    rfl

/-- **Reading tokens is reading characters.** -/
theorem alternativesOfTokens_eq_readChars {pending rhs : List Char} {tokens : List Token}
    (hhash : '#' ∉ rhs) (hdash : '-' ∉ rhs) (h : Token.scanFrom pending rhs = .ok tokens) :
    alternativesOfTokens tokens =
      prepend (pending.reverse.mapM symbolOfChar) (readChars rhs) := by
  induction pending, rhs using Token.scanFrom.induct generalizing tokens with
  | case1 pending =>
    obtain rfl := Except.ok.inj h
    exact alternativesOfTokens_flush pending []
  | case2 pending rest => exact absurd List.mem_cons_self hhash
  | case3 pending rest => exact absurd List.mem_cons_self hdash
  | case4 pending rest => exact absurd List.mem_cons_self hdash
  | case5 pending c rest _ _ _ mark hmark ih =>
    rw [List.mem_cons, not_or] at hhash hdash
    rw [Token.scanFrom_mark hmark] at h
    obtain ⟨tokens, htokens, h⟩ := bind_eq_ok h
    obtain rfl := Except.ok.inj h
    have hrest := ih hhash.2 hdash.2 htokens
    rw [List.reverse_nil, List.mapM_nil, show (pure [] : Except Cause Form) = .ok [] from rfl,
      prepend_nil] at hrest
    rw [alternativesOfTokens_flush, readChars_mark hmark hrest]
  | case6 pending c rest _ _ _ _ hsep ih =>
    rw [List.mem_cons, not_or] at hhash hdash
    rw [Token.scanFrom_separator hsep] at h
    obtain ⟨tokens, htokens, h⟩ := bind_eq_ok h
    obtain rfl := Except.ok.inj h
    have hrest := ih hhash.2 hdash.2 htokens
    rw [List.reverse_nil, List.mapM_nil, show (pure [] : Except Cause Form) = .ok [] from rfl,
      prepend_nil] at hrest
    rw [alternativesOfTokens_flush, hrest, readChars_skipped (by simp [isSkipped, hsep])]
  | case7 pending c rest hhash' _ hdash' hmark hsep ih =>
    rw [List.mem_cons, not_or] at hhash hdash
    have hletter := Token.isLetter_of_ne hmark hsep hhash' hdash'
    rw [Token.scanFrom_letter hletter] at h
    rw [ih hhash.2 hdash.2 h, readChars_letter hletter, prepend_prepend, List.reverse_cons,
      List.mapM_append]

/-! ## Rows -/

section Rows

variable {lhs : Char} {lead gap arrow rhs : List Char}

/-- A row is a left-hand side, an arrow and the tokens of its right-hand side. -/
theorem scan_row {tokens : List Token} (hlhs : lhs.isUpper = true)
    (hlead : ∀ c ∈ lead, Token.isSeparator c = true) (hgap : ∀ c ∈ gap, Token.isSeparator c = true)
    (harrow : arrow = ['→'] ∨ arrow = ['-', '>']) (hscan : Token.scan rhs = .ok tokens) :
    Token.scan (lead ++ lhs :: (gap ++ (arrow ++ rhs))) =
      .ok (.word [lhs] :: .arrow :: tokens) := by
  have hletter : Token.isLetter lhs = true := by
    refine Token.isLetter_of_isAlphanum ?_
    rw [isAlphanum_eq, hlhs, Bool.true_or]
  have hrhs : ∀ pending, Token.scanFrom pending (arrow ++ rhs) =
      .ok (Token.flush pending (.arrow :: tokens)) := by
    intro pending
    rw [Token.scan] at hscan
    rcases harrow with rfl | rfl
    · rw [List.cons_append, Token.scanFrom_mark (show Token.ofMark? '→' = some .arrow from rfl),
        List.nil_append, hscan]
      rfl
    · rw [List.cons_append, List.cons_append, Token.scanFrom_arrow, List.nil_append, hscan]
      rfl
  rw [Token.scan_append_of_separators hlead, Token.scan, Token.scanFrom_letter hletter]
  -- The first separator after the left-hand side ends its word; without one the arrow does.
  cases gap with
  | nil => exact hrhs [lhs]
  | cons c gap =>
    rw [List.forall_mem_cons] at hgap
    have hrest := Token.scan_append_of_separators hgap.2 (arrow ++ rhs)
    rw [Token.scan, Token.scan, hrhs []] at hrest
    rw [List.cons_append, Token.scanFrom_separator hgap.1, hrest]
    rfl

theorem getLast?_ne_closeBrace {tokens : List Token} (hhash : '#' ∉ rhs) (hdash : '-' ∉ rhs)
    (hlast : (rhs.filter fun c => !Token.isSeparator c).getLast? ≠ some '\x7d')
    (hscan : Token.scan rhs = .ok tokens) : tokens.getLast? ≠ some .closeBrace := by
  intro hclose
  -- The closing brace would be the last character that the tokens show.
  have hchars := Token.flatMap_chars_of_plain hhash hdash hscan
  rw [← List.dropLast_append_getLast? _ hclose, List.flatMap_append] at hchars
  have hend : ((rhs.filter fun c => !Token.isSeparator c).map Token.shownChar).getLast? =
      some '\x7d' := by
    rw [← hchars]
    exact List.getLast?_concat
  rw [List.getLast?_map, Option.map_eq_some_iff] at hend
  obtain ⟨c, hc, hshown⟩ := hend
  unfold Token.shownChar at hshown
  split at hshown
  · cases hshown
  · exact hlast (hshown ▸ hc)

/-- **A row in the block is read character by character.** -/
theorem ofChars_row_eq (hlhs : lhs.isUpper = true)
    (hlead : ∀ c ∈ lead, Token.isSeparator c = true) (hgap : ∀ c ∈ gap, Token.isSeparator c = true)
    (harrow : arrow = ['→'] ∨ arrow = ['-', '>']) (hhash : '#' ∉ rhs) (hdash : '-' ∉ rhs)
    (hlast : (rhs.filter fun c => !Token.isSeparator c).getLast? ≠ some '\x7d') :
    Line.ofChars true (lead ++ lhs :: (gap ++ (arrow ++ rhs))) =
      (readChars rhs).map fun alternatives => .row ⟨lhs, alternatives⟩ false := by
  obtain ⟨tokens, hscan⟩ := Token.exists_scan hdash
  have halternatives := alternativesOfTokens_eq_readChars hhash hdash hscan
  rw [List.reverse_nil, List.mapM_nil, show (pure [] : Except Cause Form) = .ok [] from rfl,
    prepend_nil] at halternatives
  have hclose : takeClose (.word [lhs] :: .arrow :: tokens) =
      (.word [lhs] :: .arrow :: tokens, false) := by
    refine if_neg ?_
    intro hend
    rw [List.getLast?_cons_cons, List.getLast?_cons, Option.some.injEq] at hend
    cases hlastToken : tokens.getLast? with
    | none =>
      rw [hlastToken] at hend
      cases hend
    | some last =>
      rw [hlastToken] at hend
      exact getLast?_ne_closeBrace hhash hdash hlast hscan (hlastToken.trans (congrArg some hend))
  have hrow : Row.ofTokens (.word [lhs] :: .arrow :: tokens) =
      (readChars rhs).map fun alternatives => ⟨lhs, alternatives⟩ := by
    simp only [Row.ofTokens, List.head?_cons, leftHandSide_eq_ok_iff.2 ⟨rfl, hlhs⟩,
      List.drop_succ_cons, List.drop_zero]
    show (alternativesOfTokens tokens >>= _) = _
    rw [halternatives]
    cases readChars rhs <;> rfl
  have hbody : Line.ofTokens true (.word [lhs] :: .arrow :: tokens) =
      Line.ofBody true (.word [lhs] :: .arrow :: tokens) := by
    unfold Line.ofTokens
    split <;> simp_all
  rw [Line.ofChars, scan_row hlhs hlead hgap harrow hscan]
  show Line.ofTokens true _ = _
  rw [hbody, Line.ofBody, if_neg (by simp), if_pos rfl, hclose]
  simp only [hrow]
  cases readChars rhs <;> rfl

/-- **The right-hand side of a row is read character by character.** In the block, what stands
between bars are the alternatives of the row: separators and marks for the empty form are dropped,
and each character that is left is a symbol. If one of them is no letter or digit, the line is
refused, and the first of them in the line is given as the reason. -/
theorem row_read_by_characters (hlhs : lhs.isUpper = true)
    (hlead : ∀ c ∈ lead, Token.isSeparator c = true) (hgap : ∀ c ∈ gap, Token.isSeparator c = true)
    (harrow : arrow = ['→'] ∨ arrow = ['-', '>']) (hhash : '#' ∉ rhs) (hdash : '-' ∉ rhs)
    (hlast : (rhs.filter fun c => !Token.isSeparator c).getLast? ≠ some '\x7d') :
    (misfit? rhs = none → ∃ alternatives : List Form,
      Line.ofChars true (lead ++ lhs :: (gap ++ (arrow ++ rhs))) =
          .ok (.row ⟨lhs, alternatives⟩ false) ∧
        alternatives.map (List.map some) = (rhs.splitOn '|').map pieceSymbols) ∧
    ∀ c, misfit? rhs = some c →
      Line.ofChars true (lead ++ lhs :: (gap ++ (arrow ++ rhs))) = .error (refusal c) := by
  rw [ofChars_row_eq hlhs hlead hgap harrow hhash hdash hlast]
  constructor
  · intro hnone
    obtain ⟨alternatives, halternatives, hpieces⟩ := readChars_of_no_misfit hnone
    exact ⟨alternatives, by rw [halternatives]; rfl, hpieces⟩
  · intro c hc
    rw [readChars_of_misfit hc]
    rfl

/-- Blanks within an alternative are dropped, and a brace within the row is refused before the
character after it. -/
theorem row_read_by_characters_spread :
    (∃ alternatives : List Form,
      Line.ofChars true "  S -> a S, b|λ".toList = .ok (.row ⟨'S', alternatives⟩ false) ∧
        alternatives.map (List.map some) =
          [[some (.terminal 'a'), some (.nonterminal 'S'), some (.terminal 'b')], []]) ∧
      Line.ofChars true "S→a|\x7d+b".toList = .error (.unexpectedToken "\x7d") := by
  have hspread := @row_read_by_characters 'S' [' ', ' '] [' '] ['-', '>'] " a S, b|λ".toList
    rfl (List.all_eq_true.1 rfl) (List.all_eq_true.1 rfl) (.inr rfl) (by decide) (by decide)
    (by decide)
  have hbrace := @row_read_by_characters 'S' [] [] ['→'] "a|\x7d+b".toList
    rfl (List.all_eq_true.1 rfl) (List.all_eq_true.1 rfl) (.inl rfl) (by decide) (by decide)
    (by decide)
  exact ⟨hspread.1 (by decide), hbrace.2 '\x7d' (by decide)⟩

end Rows

end PhraseStructure.Source
