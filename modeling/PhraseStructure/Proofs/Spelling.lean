import Mathlib.Data.List.Forall2
import PhraseStructure.Proofs.WellFormed

/-!
# How lines are spelled

What the tokens of a line have to be for it to say something: the format of rows and lines, without
the order in which a reader looks for them. A row is a capital, an arrow and alternatives that bars
divide; a line is blank, a declaration, the opening of the block with or without a row, a row, or a
closing brace, which may also end the opening line or a row.

* `Row.ofTokens_eq_ok_iff`, `Line.ofTokens_eq_ok_iff`: a reader of tokens succeeds exactly on these
  spellings. Only rows and the closing brace need an open block.
* `Line.ofChars_eq_ok_iff`: the same for the characters of a line.
-/

namespace PhraseStructure.Source

theorem mapM_eq_ok_iff {ε α β : Type} {f : α → Except ε β} {l : List α} {bs : List β} :
    l.mapM f = .ok bs ↔ List.Forall₂ (fun a b => f a = .ok b) l bs := by
  induction l generalizing bs with
  | nil =>
    rw [List.forall₂_nil_left_iff]
    constructor
    · intro h
      exact (Except.ok.inj h).symm
    · rintro rfl
      rfl
  | cons a rest ih =>
    rw [List.mapM_cons, List.forall₂_cons_left_iff]
    constructor
    · intro h
      obtain ⟨b, hb, h⟩ := bind_eq_ok h
      obtain ⟨bs', hbs', h⟩ := bind_eq_ok h
      exact ⟨b, bs', hb, ih.1 hbs', (Except.ok.inj h).symm⟩
    · rintro ⟨b, bs', hb, hbs', rfl⟩
      rw [hb, ih.2 hbs']
      rfl

/-- A successful `mapM` of a function that is known where it succeeds. -/
theorem mapM_eq_ok_iff_map {ε α β : Type} {f : α → Except ε β} {P : α → Prop} {g : α → β}
    (hf : ∀ a b, f a = .ok b ↔ P a ∧ b = g a) {l : List α} {bs : List β} :
    l.mapM f = .ok bs ↔ (∀ a ∈ l, P a) ∧ bs = l.map g := by
  rw [mapM_eq_ok_iff]
  induction l generalizing bs with
  | nil => simp
  | cons a rest ih =>
    rw [List.forall₂_cons_left_iff, List.forall_mem_cons, List.map_cons]
    constructor
    · rintro ⟨b, bs', hb, hbs', rfl⟩
      obtain ⟨ha, rfl⟩ := (hf a b).1 hb
      obtain ⟨hrest, rfl⟩ := ih.1 hbs'
      exact ⟨⟨ha, hrest⟩, rfl⟩
    · rintro ⟨⟨ha, hrest⟩, rfl⟩
      exact ⟨g a, rest.map g, (hf a _).2 ⟨ha, rfl⟩, ih.2 ⟨hrest, rfl⟩, rfl⟩

/-- What stands in lists with a separator between them stands in the separator or in a list. -/
theorem mem_intercalate {α : Type} {x : α} {sep : List α} {ls : List (List α)}
    (h : x ∈ sep.intercalate ls) : x ∈ sep ∨ ∃ l ∈ ls, x ∈ l := by
  induction ls with
  | nil => simp at h
  | cons l rest ih =>
    cases rest with
    | nil => exact .inr ⟨l, List.mem_cons_self, by simpa using h⟩
    | cons l' rest =>
      rw [List.intercalate_cons_cons, List.mem_append, List.mem_append] at h
      rcases h with (h | h) | h
      · exact .inr ⟨l, List.mem_cons_self, h⟩
      · exact .inl h
      · rcases ih h with h | ⟨l'', hl'', h⟩
        · exact .inl h
        · exact .inr ⟨l'', List.mem_cons_of_mem _ hl'', h⟩

/-! ## Rows -/

namespace Token

/-- The letters of a token; only words have some. -/
def letters : Token → List Char
  | word letters => letters
  | _ => []

/-- A token that may stand in an alternative: a word of ASCII letters and digits, or a mark for the
empty form. -/
def IsSymbols : Token → Prop
  | epsilon => True
  | word letters => ∀ c ∈ letters, c.isAlphanum = true
  | _ => False

end Token

/-- The form that the tokens of an alternative spell. -/
def spelledForm (tokens : List Token) : Form := Form.ofChars (tokens.flatMap Token.letters)

/-- The tokens spell the row: its capital, an arrow, and its alternatives with bars between them. -/
def Row.Spelled (row : Row) (tokens : List Token) : Prop :=
  row.lhs.isUpper = true ∧ ∃ parts : List (List Token), parts ≠ [] ∧
    (∀ part ∈ parts, ∀ token ∈ part, token.IsSymbols) ∧
    tokens = .word [row.lhs] :: .arrow :: [.bar].intercalate parts ∧
    row.alternatives = parts.map spelledForm

theorem isAlphanum_eq (c : Char) : c.isAlphanum = (c.isUpper || (c.isLower || c.isDigit)) :=
  Bool.or_assoc _ _ _

theorem exists_ofChar?_iff {c : Char} :
    (∃ s, Symbol.ofChar? c = some s) ↔ c.isAlphanum = true := by
  rw [isAlphanum_eq]
  unfold Symbol.ofChar?
  by_cases hupper : c.isUpper = true
  · simp [hupper]
  · by_cases hlower : (c.isLower || c.isDigit) = true
    · simp [hupper, hlower]
    · simp [hupper, hlower]

theorem symbolOfChar_eq_ok_iff {c : Char} {s : Symbol} :
    symbolOfChar c = .ok s ↔ Symbol.ofChar? c = some s := by
  unfold symbolOfChar
  split
  · next t ht => rw [ht, Except.ok.injEq, Option.some.injEq]
  · next ht => simp [ht]

theorem ofChars_cons {c : Char} {s : Symbol} (h : Symbol.ofChar? c = some s) (rest : List Char) :
    Form.ofChars (c :: rest) = s :: Form.ofChars rest :=
  List.filterMap_cons_some h

theorem mapM_symbolOfChar_eq_ok_iff {cs : List Char} {form : Form} :
    cs.mapM symbolOfChar = .ok form ↔
      (∀ c ∈ cs, c.isAlphanum = true) ∧ form = Form.ofChars cs := by
  rw [mapM_eq_ok_iff]
  induction cs generalizing form with
  | nil => simp [Form.ofChars]
  | cons c rest ih =>
    rw [List.forall₂_cons_left_iff, List.forall_mem_cons, ← exists_ofChar?_iff]
    constructor
    · rintro ⟨s, form', hs, hform', rfl⟩
      rw [symbolOfChar_eq_ok_iff] at hs
      obtain ⟨hrest, rfl⟩ := ih.1 hform'
      exact ⟨⟨⟨s, hs⟩, hrest⟩, (ofChars_cons hs rest).symm⟩
    · rintro ⟨⟨⟨s, hs⟩, hrest⟩, rfl⟩
      exact ⟨s, Form.ofChars rest, symbolOfChar_eq_ok_iff.2 hs, ih.2 ⟨hrest, rfl⟩,
        ofChars_cons hs rest⟩

theorem formOfToken_eq_ok_iff (token : Token) (form : Form) :
    formOfToken token = .ok form ↔ token.IsSymbols ∧ form = Form.ofChars token.letters := by
  cases token with
  | epsilon =>
    simp only [formOfToken, Token.IsSymbols, Token.letters, Except.ok.injEq, true_and]
    exact eq_comm
  | word letters => exact mapM_symbolOfChar_eq_ok_iff
  | _ => simp [formOfToken, Token.IsSymbols]

theorem formOfTokens_eq_ok_iff (tokens : List Token) (form : Form) :
    formOfTokens tokens = .ok form ↔
      (∀ token ∈ tokens, token.IsSymbols) ∧ form = spelledForm tokens := by
  have hflat : (tokens.map fun token => Form.ofChars token.letters).flatten =
      spelledForm tokens := by
    rw [spelledForm, Form.ofChars, List.filterMap_flatMap, List.flatMap_def]
    rfl
  constructor
  · intro h
    obtain ⟨pieces, hpieces, h⟩ := bind_eq_ok h
    obtain ⟨hsymbols, rfl⟩ := (mapM_eq_ok_iff_map formOfToken_eq_ok_iff).1 hpieces
    exact ⟨hsymbols, (Except.ok.inj h).symm.trans hflat⟩
  · rintro ⟨hsymbols, rfl⟩
    unfold formOfTokens
    rw [(mapM_eq_ok_iff_map formOfToken_eq_ok_iff).2 ⟨hsymbols, rfl⟩, ← hflat]
    rfl

theorem leftHandSide_eq_ok_iff {token : Option Token} {c : Char} :
    leftHandSide token = .ok c ↔ token = some (.word [c]) ∧ c.isUpper = true := by
  constructor
  · intro h
    refine ⟨?_, isUpper_of_leftHandSide h⟩
    cases token with
    | none => cases h
    | some t =>
      cases t with
      | word letters =>
        rcases letters with _ | ⟨d, _ | ⟨e, rest⟩⟩
        · cases h
        · change (if d.isUpper then .ok d else .error _) = Except.ok c at h
          split at h
          · rw [Except.ok.inj h]
          · cases h
        · cases h
      | _ => cases h
  · rintro ⟨rfl, hc⟩
    exact if_pos hc

/-- **A row is read exactly from its spellings.** -/
theorem Row.ofTokens_eq_ok_iff {tokens : List Token} {row : Row} :
    Row.ofTokens tokens = .ok row ↔ row.Spelled tokens := by
  constructor
  · intro h
    obtain ⟨lhs, hlhs, h⟩ := bind_eq_ok h
    obtain ⟨hhead, hupper⟩ := leftHandSide_eq_ok_iff.1 hlhs
    split at h
    · next rest hrest =>
      obtain ⟨forms, hforms, h⟩ := bind_eq_ok h
      obtain rfl := Except.ok.inj h
      obtain ⟨hsymbols, rfl⟩ := (mapM_eq_ok_iff_map formOfTokens_eq_ok_iff).1 hforms
      refine ⟨hupper, rest.splitOn .bar, List.splitOn_ne_nil _ _, hsymbols, ?_, rfl⟩
      rw [List.intercalate_splitOn, ← hrest]
      cases tokens with
      | nil => cases hhead
      | cons first later => rw [Option.some.inj hhead]; rfl
    · cases h
  · rintro ⟨hupper, parts, hne, hsymbols, rfl, hforms⟩
    -- No part holds a bar, so splitting at the bars gives the parts back.
    have hsplit : ([Token.bar].intercalate parts).splitOn .bar = parts := by
      refine List.splitOn_intercalate _ ?_ hne
      intro part hpart hbar
      exact hsymbols part hpart _ hbar
    have halternatives :
        alternativesOfTokens ([.bar].intercalate parts) = .ok row.alternatives := by
      unfold alternativesOfTokens
      rw [hsplit, (mapM_eq_ok_iff_map formOfTokens_eq_ok_iff).2 ⟨hsymbols, hforms⟩]
    have hlhs : leftHandSide (some (.word [row.lhs])) = .ok row.lhs :=
      leftHandSide_eq_ok_iff.2 ⟨rfl, hupper⟩
    simp only [Row.ofTokens, List.head?_cons, hlhs, List.drop_succ_cons, List.drop_zero]
    show (alternativesOfTokens _ >>= _) = _
    rw [halternatives]
    rfl

/-! ## Lines -/

/-- The tokens that open the block, `P = {`. -/
def opening : List Token := [.word [blockLetter], .equals, .openBrace]

/-- The tokens at the end of a line that may close the block. -/
def closing : Bool → List Token
  | true => [.closeBrace]
  | false => []

/-- The tokens spell the line. -/
inductive Line.Spelled : Line → List Token → Prop where
  | blank : Spelled .blank []
  | header (sec : Section) (words : List (List Char)) :
      Spelled (.header sec words) (.word [sec.letter] :: .equals :: words.map .word)
  | openBlock (closes : Bool) : Spelled (.openBlock none closes) (opening ++ closing closes)
  | openBlockRow {row : Row} {tokens : List Token} (closes : Bool) (h : row.Spelled tokens) :
      Spelled (.openBlock (some row) closes) (opening ++ (tokens ++ closing closes))
  | row {row : Row} {tokens : List Token} (closes : Bool) (h : row.Spelled tokens) :
      Spelled (.row row closes) (tokens ++ closing closes)
  | closeBlock : Spelled .closeBlock [.closeBrace]

/-- Whether the line only has a meaning inside the block. -/
def Line.belongsInBlock : Line → Bool
  | .row _ _ => true
  | .closeBlock => true
  | _ => false

theorem takeClose_eq {tokens body : List Token} {closes : Bool}
    (h : takeClose tokens = (body, closes)) : tokens = body ++ closing closes := by
  unfold takeClose at h
  split at h
  · next hlast =>
    obtain ⟨rfl, rfl⟩ := Prod.mk.inj h
    exact (List.dropLast_append_getLast? _ hlast).symm
  · obtain ⟨rfl, rfl⟩ := Prod.mk.inj h
    exact (List.append_nil _).symm

theorem takeClose_append {tokens : List Token} (h : tokens.getLast? ≠ some .closeBrace)
    (closes : Bool) : takeClose (tokens ++ closing closes) = (tokens, closes) := by
  cases closes with
  | false => simp [closing, takeClose, h]
  | true => simp [closing, takeClose]

/-- A row does not end with a closing brace, so it can be told from the brace after it. -/
theorem Row.Spelled.getLast?_ne {row : Row} {tokens : List Token} (h : row.Spelled tokens) :
    tokens.getLast? ≠ some .closeBrace := by
  obtain ⟨-, parts, -, hsymbols, rfl, -⟩ := h
  intro hlast
  have hmem : Token.closeBrace ∈ [Token.bar].intercalate parts := by
    have hmem := List.mem_of_getLast? hlast
    simpa using hmem
  rcases mem_intercalate hmem with hbar | ⟨part, hpart, hmem⟩
  · simp at hbar
  · exact hsymbols part hpart _ hmem

theorem mapM_wordOfToken_eq_ok_iff {tokens : List Token} {words : List (List Char)} :
    tokens.mapM wordOfToken = .ok words ↔ tokens = words.map .word := by
  have hword : ∀ (token : Token) (word : List Char),
      wordOfToken token = .ok word ↔ token = .word word := by
    intro token word
    cases token <;> simp [wordOfToken]
  rw [mapM_eq_ok_iff]
  simp only [hword]
  rw [← List.forall₂_map_right_iff (f := Token.word) (R := Eq), List.forall₂_eq_eq_eq]

theorem Line.spelled_of_ofHeader {sec : Section} {tokens : List Token} {line : Line}
    (h : ofHeader sec tokens = .ok line) :
    line.Spelled (.word [sec.letter] :: .equals :: tokens) ∧ line.belongsInBlock = false := by
  obtain ⟨words, hwords, h⟩ := bind_eq_ok h
  obtain rfl := Except.ok.inj h
  obtain rfl := mapM_wordOfToken_eq_ok_iff.1 hwords
  exact ⟨.header sec words, rfl⟩

theorem Line.spelled_of_ofBlockHeader {tokens : List Token} {line : Line}
    (h : ofBlockHeader tokens = .ok line) :
    line.Spelled (.word [blockLetter] :: .equals :: tokens) ∧ line.belongsInBlock = false := by
  unfold ofBlockHeader at h
  split at h
  · next rest =>
    rcases hclose : takeClose rest with ⟨body, closes⟩
    obtain rfl := takeClose_eq hclose
    rw [hclose] at h
    simp only at h
    split at h
    · next hempty =>
      obtain rfl := List.isEmpty_iff.1 hempty
      obtain rfl := Except.ok.inj h
      exact ⟨.openBlock closes, rfl⟩
    · obtain ⟨row, hrow, h⟩ := bind_eq_ok h
      obtain rfl := Except.ok.inj h
      exact ⟨.openBlockRow closes (Row.ofTokens_eq_ok_iff.1 hrow), rfl⟩
  all_goals cases h

theorem Line.spelled_of_ofBody {inBlock : Bool} {tokens : List Token} {line : Line}
    (h : ofBody inBlock tokens = .ok line) : line.Spelled tokens ∧ inBlock = true := by
  unfold ofBody at h
  split at h
  · next hbrace =>
    subst hbrace
    split at h
    · next hin =>
      obtain rfl := Except.ok.inj h
      exact ⟨.closeBlock, hin⟩
    · cases h
  · split at h
    · next hin =>
      rcases hclose : takeClose tokens with ⟨body, closes⟩
      obtain rfl := takeClose_eq hclose
      rw [hclose] at h
      obtain ⟨row, hrow, h⟩ := bind_eq_ok h
      obtain rfl := Except.ok.inj h
      exact ⟨.row closes (Row.ofTokens_eq_ok_iff.1 hrow), hin⟩
    · split at h <;> cases h

theorem Line.ofTokens_header (inBlock : Bool) (sec : Section) (words : List (List Char)) :
    ofTokens inBlock (.word [sec.letter] :: .equals :: words.map .word) =
      .ok (.header sec words) := by
  have hheader : ofHeader sec (words.map .word) = .ok (.header sec words) := by
    unfold ofHeader
    rw [mapM_wordOfToken_eq_ok_iff.2 rfl]
    rfl
  cases sec <;> exact hheader

theorem Line.ofTokens_opening (inBlock : Bool) (rest : List Token) :
    ofTokens inBlock (opening ++ rest) = ofBlockHeader (.openBrace :: rest) := rfl

/-- A row of the block is not taken for a header, since an arrow follows its first word. -/
theorem Line.ofTokens_row {row : Row} {tokens : List Token} (h : row.Spelled tokens)
    (closes : Bool) : ofTokens true (tokens ++ closing closes) = .ok (.row row closes) := by
  have hbody : ofBody true (tokens ++ closing closes) = .ok (.row row closes) := by
    have hne : tokens ++ closing closes ≠ [.closeBrace] := by
      obtain ⟨-, parts, -, -, rfl, -⟩ := h
      simp
    unfold ofBody
    rw [if_neg hne, if_pos rfl, takeClose_append h.getLast?_ne]
    simp only [Row.ofTokens_eq_ok_iff.2 h]
    rfl
  rw [← hbody]
  -- What follows the first word is `=` in every other pattern.
  obtain ⟨-, parts, -, -, rfl, -⟩ := h
  unfold ofTokens
  split <;> simp_all

/-- **A line is read exactly from its spellings,** and from those of rows and of the closing brace
only inside the block. -/
theorem Line.ofTokens_eq_ok_iff {inBlock : Bool} {tokens : List Token} {line : Line} :
    ofTokens inBlock tokens = .ok line ↔
      line.Spelled tokens ∧ (line.belongsInBlock = true → inBlock = true) := by
  constructor
  · intro h
    -- Blank lines, declarations and the opening line are read inside the block and outside.
    have houter : ∀ {tokens : List Token},
        line.Spelled tokens ∧ line.belongsInBlock = false →
          line.Spelled tokens ∧ (line.belongsInBlock = true → inBlock = true) := by
      intro tokens ⟨hspelled, hbelongs⟩
      refine ⟨hspelled, ?_⟩
      intro hin
      rw [hbelongs] at hin
      cases hin
    unfold ofTokens at h
    split at h
    · obtain rfl := Except.ok.inj h
      exact houter ⟨.blank, rfl⟩
    · exact houter (spelled_of_ofHeader h)
    · exact houter (spelled_of_ofHeader h)
    · exact houter (spelled_of_ofHeader h)
    · exact houter (spelled_of_ofBlockHeader h)
    · obtain ⟨hspelled, hin⟩ := spelled_of_ofBody h
      exact ⟨hspelled, fun _ => hin⟩
  · rintro ⟨hspelled, hin⟩
    cases hspelled with
    | blank => rfl
    | header sec words => exact ofTokens_header inBlock sec words
    | openBlock closes =>
      rw [ofTokens_opening]
      cases closes <;> rfl
    | @openBlockRow row tokens closes h =>
      have hne : tokens.isEmpty = false := by
        obtain ⟨-, parts, -, -, rfl, -⟩ := h
        rfl
      rw [ofTokens_opening, ofBlockHeader, takeClose_append h.getLast?_ne]
      simp only [hne, Row.ofTokens_eq_ok_iff.2 h, Bool.false_eq_true, if_false]
      rfl
    | row closes h =>
      rw [hin rfl]
      exact ofTokens_row h closes
    | closeBlock =>
      rw [hin rfl]
      rfl

/-- The characters of a line spell what it says. -/
def Line.SpelledBy (line : Line) (chars : List Char) : Prop :=
  ∃ tokens, Token.scan chars = .ok tokens ∧ line.Spelled tokens

theorem Line.ofChars_eq_ok_iff {inBlock : Bool} {chars : List Char} {line : Line} :
    ofChars inBlock chars = .ok line ↔
      line.SpelledBy chars ∧ (line.belongsInBlock = true → inBlock = true) := by
  constructor
  · intro h
    obtain ⟨tokens, htokens, h⟩ := bind_eq_ok h
    obtain ⟨hspelled, hin⟩ := ofTokens_eq_ok_iff.1 h
    exact ⟨⟨tokens, htokens, hspelled⟩, hin⟩
  · rintro ⟨⟨tokens, htokens, hspelled⟩, hin⟩
    unfold ofChars
    rw [htokens]
    exact ofTokens_eq_ok_iff.2 ⟨hspelled, hin⟩

end PhraseStructure.Source
