import PhraseStructure.Proofs.RoundTrip

/-!
# What tokens take from their line

A scanner goes through the characters of a line once, holding back the letters of a word until it
ends. What it does with a character depends on the kind of the character, and with a dash also on
the one after it. So a line has the same tokens if a comment follows it, or if its arrows, marks for
the empty form and separators are spelled in another way.

* `scanFrom_mark`, `scanFrom_separator`, `scanFrom_dash`: one character at a time.
* `Respelled`, `scanFrom_respelled`, `scanFrom_append_comment`: lines with the same tokens.
* `isLetter_of_mem_scan`: what words are made of.
-/

namespace PhraseStructure.Source

/-- The second line is the first one with some arrows, marks for the empty form and separators in
their other spelling. -/
inductive Respelled : List Char → List Char → Prop where
  | nil : Respelled [] []
  | same (c : Char) {cs cs' : List Char} : Respelled cs cs' → Respelled (c :: cs) (c :: cs')
  | dashArrow {cs cs' : List Char} : Respelled cs cs' → Respelled ('→' :: cs) ('-' :: '>' :: cs')
  | arrow {cs cs' : List Char} : Respelled cs cs' → Respelled ('-' :: '>' :: cs) ('→' :: cs')
  | epsilon {cs cs' : List Char} : Respelled cs cs' → Respelled ('λ' :: cs) ('ε' :: cs')
  | lambda {cs cs' : List Char} : Respelled cs cs' → Respelled ('ε' :: cs) ('λ' :: cs')
  | blank {cs cs' : List Char} : Respelled cs cs' → Respelled (',' :: cs) (' ' :: cs')
  | comma {cs cs' : List Char} : Respelled cs cs' → Respelled (' ' :: cs) (',' :: cs')

/-- A character without another spelling is not put at the front. -/
theorem Respelled.head?_ne {cs cs' : List Char} (h : Respelled cs cs') {c : Char}
    (hc : c ∉ ['→', '-', 'ε', 'λ', ',', ' ']) (hhead : cs.head? ≠ some c) :
    cs'.head? ≠ some c := by
  cases h with
  | nil => exact hhead
  | same d _ => exact hhead
  | _ =>
    intro heq
    obtain rfl := Option.some.inj heq
    simp at hc

namespace Token

/-! ## Character by character -/

variable {c : Char} {mark : Token}

theorem isSeparator_of_ofMark? (h : ofMark? c = some mark) : isSeparator c = false := by
  unfold ofMark? at h
  split at h
  case h_8 => cases h
  all_goals rfl

theorem scanFrom_mark (hc : ofMark? c = some mark) (pending rest : List Char) :
    scanFrom pending (c :: rest) =
      (do let tokens ← scanFrom [] rest; return flush pending (mark :: tokens)) := by
  have hhash : c ≠ '#' := by
    rintro rfl
    cases hc
  have hdash : c ≠ '-' := by
    rintro rfl
    cases hc
  rw [scanFrom.eq_5 pending c rest hhash (fun _ h _ => hdash h) hdash]
  simp only [hc]

theorem scanFrom_separator (hc : isSeparator c = true) (pending rest : List Char) :
    scanFrom pending (c :: rest) =
      (do let tokens ← scanFrom [] rest; return flush pending tokens) := by
  have hhash : c ≠ '#' := by
    rintro rfl
    cases hc
  have hdash : c ≠ '-' := by
    rintro rfl
    cases hc
  have hmark : ofMark? c = none := by
    rw [Option.eq_none_iff_forall_ne_some]
    intro mark hmark
    rw [isSeparator_of_ofMark? hmark] at hc
    cases hc
  rw [scanFrom.eq_5 pending c rest hhash (fun _ h _ => hdash h) hdash]
  simp only [hmark, hc, if_true]

theorem scanFrom_arrow (pending rest : List Char) :
    scanFrom pending ('-' :: '>' :: rest) =
      (do let tokens ← scanFrom [] rest; return flush pending (arrow :: tokens)) := rfl

/-- A dash before anything but `>` makes the line unreadable. -/
theorem scanFrom_dash {rest : List Char} (h : rest.head? ≠ some '>') (pending : List Char) :
    scanFrom pending ('-' :: rest) = .error (.invalidSymbol "-") := by
  refine scanFrom.eq_4 pending rest ?_
  rintro rest' rfl
  exact h rfl

/-- A character is a separator, a mark, a letter, a dash, or starts a comment. -/
theorem isLetter_of_ne (hmark : ofMark? c = none) (hsep : ¬ isSeparator c = true) (hhash : c ≠ '#')
    (hdash : c ≠ '-') : isLetter c = true := by
  simp [isLetter, hmark, hsep, hhash, hdash]

/-! ## Lines with the same tokens -/

theorem head?_ne_of_forall_ne {rest : List Char} (h : ∀ rest', rest = '>' :: rest' → False) :
    rest.head? ≠ some '>' := by
  intro hhead
  obtain ⟨rest', hrest⟩ := List.head?_eq_some_iff.1 hhead
  exact h rest' hrest

/-- **The spelling of marks and separators does not matter.** -/
theorem scanFrom_respelled {pending cs cs' : List Char} (h : Respelled cs cs') :
    scanFrom pending cs' = scanFrom pending cs := by
  induction pending, cs using scanFrom.induct generalizing cs' with
  | case1 pending =>
    cases h
    rfl
  | case2 pending rest =>
    cases h
    rfl
  | case3 pending rest ih =>
    -- The arrow is kept, or it is replaced as a whole.
    cases h with
    | same _ h =>
      cases h with
      | same _ h => rw [scanFrom_arrow, scanFrom_arrow, ih h]
    | arrow h => rw [scanFrom_mark (show ofMark? '→' = some .arrow from rfl), scanFrom_arrow, ih h]
  | case4 pending rest hrest =>
    have hhead := head?_ne_of_forall_ne hrest
    cases h with
    | same _ h => rw [scanFrom_dash hhead, scanFrom_dash (h.head?_ne (by decide) hhead)]
    | arrow h => exact absurd rfl hhead
  | case5 pending c rest _ _ hdash mark hmark ih =>
    rw [scanFrom_mark hmark]
    cases h with
    | same _ h => rw [scanFrom_mark hmark, ih h]
    | dashArrow h =>
      obtain rfl := Option.some.inj hmark
      rw [scanFrom_arrow, ih h]
    | arrow h => exact absurd rfl hdash
    | epsilon h =>
      obtain rfl := Option.some.inj hmark
      rw [scanFrom_mark (show ofMark? 'ε' = some .epsilon from rfl), ih h]
    | lambda h =>
      obtain rfl := Option.some.inj hmark
      rw [scanFrom_mark (show ofMark? 'λ' = some .epsilon from rfl), ih h]
    | blank h => cases hmark
    | comma h => cases hmark
  | case6 pending c rest _ _ hdash hmark hsep ih =>
    rw [scanFrom_separator hsep]
    cases h with
    | same _ h => rw [scanFrom_separator hsep, ih h]
    | arrow h => exact absurd rfl hdash
    | blank h => rw [scanFrom_separator (by decide), ih h]
    | comma h => rw [scanFrom_separator (by decide), ih h]
    | _ => cases hmark
  | case7 pending c rest hhash _ hdash hmark hsep ih =>
    cases h with
    | same _ h =>
      have hletter := isLetter_of_ne hmark hsep hhash hdash
      rw [scanFrom_letter hletter, scanFrom_letter hletter, ih h]
    | arrow h => exact absurd rfl hdash
    | blank h => exact absurd rfl hsep
    | comma h => exact absurd rfl hsep
    | _ => cases hmark

/-- **A comment adds nothing to a line,** also where the line ends within a word or with a dash. -/
theorem scanFrom_append_comment (pending line comment : List Char) :
    scanFrom pending (line ++ '#' :: comment) = scanFrom pending line := by
  induction pending, line using scanFrom.induct with
  | case1 pending => rfl
  | case2 pending rest => rfl
  | case3 pending rest ih =>
    show scanFrom pending ('-' :: '>' :: (rest ++ _)) = _
    rw [scanFrom_arrow, scanFrom_arrow, ih]
  | case4 pending rest hrest =>
    have hhead := head?_ne_of_forall_ne hrest
    have hhead' : (rest ++ '#' :: comment).head? ≠ some '>' := by
      cases rest with
      | nil => simp
      | cons c rest => exact hhead
    rw [List.cons_append, scanFrom_dash hhead, scanFrom_dash hhead']
  | case5 pending c rest _ _ _ mark hmark ih =>
    rw [List.cons_append, scanFrom_mark hmark, scanFrom_mark hmark, ih]
  | case6 pending c rest _ _ _ _ hsep ih =>
    rw [List.cons_append, scanFrom_separator hsep, scanFrom_separator hsep, ih]
  | case7 pending c rest hhash _ hdash hmark hsep ih =>
    have hletter := isLetter_of_ne hmark hsep hhash hdash
    rw [List.cons_append, scanFrom_letter hletter, scanFrom_letter hletter, ih]

/-- Separators before a line add nothing to it. -/
theorem scan_append_of_separators {line : List Char} (h : ∀ c ∈ line, isSeparator c = true)
    (rest : List Char) : scan (line ++ rest) = scan rest := by
  induction line with
  | nil => rfl
  | cons c line ih =>
    rw [List.forall_mem_cons] at h
    rw [List.cons_append, scan, scanFrom_separator h.1]
    show (scan (line ++ rest) >>= pure) = _
    rw [bind_pure, ih h.2]

/-! ## Words -/

theorem isLetter_of_mem_flush {pending : List Char} {tokens : List Token} {letters : List Char}
    (hpending : ∀ c ∈ pending, isLetter c = true)
    (htokens : .word letters ∈ tokens → ∀ c ∈ letters, isLetter c = true)
    (h : .word letters ∈ flush pending tokens) : ∀ c ∈ letters, isLetter c = true := by
  unfold flush at h
  split at h
  · exact htokens h
  · rcases List.mem_cons.1 h with heq | h
    · rw [Token.word.inj heq]
      intro c hc
      exact hpending c (List.mem_reverse.1 hc)
    · exact htokens h

theorem isLetter_of_mem_scanFrom {pending line : List Char} {tokens : List Token}
    (hpending : ∀ c ∈ pending, isLetter c = true) (h : scanFrom pending line = .ok tokens)
    {letters : List Char} (hword : .word letters ∈ tokens) :
    ∀ c ∈ letters, isLetter c = true := by
  have hnil : ∀ c ∈ ([] : List Char), isLetter c = true := fun c hc => by cases hc
  induction pending, line using scanFrom.induct generalizing tokens with
  | case1 pending =>
    obtain rfl := Except.ok.inj h
    exact isLetter_of_mem_flush hpending (fun h => by cases h) hword
  | case2 pending rest =>
    obtain rfl := Except.ok.inj h
    exact isLetter_of_mem_flush hpending (fun h => by cases h) hword
  | case3 pending rest ih =>
    obtain ⟨tokens, htokens, h⟩ := bind_eq_ok h
    obtain rfl := Except.ok.inj h
    exact isLetter_of_mem_flush hpending
      (fun h => ih hnil htokens (List.mem_of_ne_of_mem (by simp) h)) hword
  | case4 pending rest hrest =>
    rw [scanFrom_dash (head?_ne_of_forall_ne hrest)] at h
    cases h
  | case5 pending c rest _ _ _ mark hmark ih =>
    have hne : .word letters ≠ mark := by
      rintro rfl
      unfold ofMark? at hmark
      split at hmark <;> cases hmark
    rw [scanFrom_mark hmark] at h
    obtain ⟨tokens, htokens, h⟩ := bind_eq_ok h
    obtain rfl := Except.ok.inj h
    exact isLetter_of_mem_flush hpending
      (fun h => ih hnil htokens (List.mem_of_ne_of_mem hne h)) hword
  | case6 pending c rest _ _ _ _ hsep ih =>
    rw [scanFrom_separator hsep] at h
    obtain ⟨tokens, htokens, h⟩ := bind_eq_ok h
    obtain rfl := Except.ok.inj h
    exact isLetter_of_mem_flush hpending (fun h => ih hnil htokens h) hword
  | case7 pending c rest hhash _ hdash hmark hsep ih =>
    have hletter := isLetter_of_ne hmark hsep hhash hdash
    rw [scanFrom_letter hletter] at h
    exact ih (List.forall_mem_cons.2 ⟨hletter, hpending⟩) h hword

/-- **Words are made of letters.** -/
theorem isLetter_of_mem_scan {line : List Char} {tokens : List Token}
    (h : scan line = .ok tokens) {letters : List Char} (hword : .word letters ∈ tokens) :
    ∀ c ∈ letters, isLetter c = true :=
  isLetter_of_mem_scanFrom (fun c hc => by cases hc) h hword

/-! ## Marks -/

/-- The character that shows a mark. -/
def shownChar (c : Char) : Char := if c = 'λ' then 'ε' else c

theorem chars_of_ofMark? (h : ofMark? c = some mark) : mark.chars = [shownChar c] := by
  unfold ofMark? at h
  split at h
  case h_8 => cases h
  all_goals
    obtain rfl := Option.some.inj h
    rfl

end Token

end PhraseStructure.Source
