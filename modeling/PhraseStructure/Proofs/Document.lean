import Mathlib.Data.List.DropRight
import Mathlib.Data.List.TakeDrop
import Mathlib.Tactic.SplitIfs
import PhraseStructure.Json.Reader
import PhraseStructure.Json.Writer

/-!
# Reading a written document

A value that is written in a layout is read back, whatever characters its texts have: a string
literal gives back the text character by character, and blanks of the layout stand only where the
reader leaves them out. Each call of the reader is paid for by characters of the document, two
calls for each, so the fuel suffices. Numbers are kept as they are written and need not be
numerals, so values with numbers are left out.

* `text?_escape`: an escaped character is read back.
* `NumberFree.readsBack`: a written value is read back from the start of a text.
* `read?_write_append`, `read?_write`: a written document is read back.
-/

namespace PhraseStructure.Json

/-! ## Blanks -/

/-- The characters may all stand between tokens. -/
def AllSpace (cs : List Char) : Prop := ∀ c ∈ cs, isSpace c = true

theorem AllSpace.nil : AllSpace [] := by simp [AllSpace]

theorem skip_append {blanks : List Char} (h : AllSpace blanks) (cs : List Char) :
    skip (blanks ++ cs) = skip cs :=
  List.dropWhile_append_of_pos h

theorem skip_cons {c : Char} (h : isSpace c = false) (cs : List Char) :
    skip (c :: cs) = c :: cs := by
  simp [skip, h]

theorem skip_skip (cs : List Char) : skip (skip cs) = skip cs :=
  List.dropWhile_idempotent isSpace cs

/-! ## Strings -/

theorem hexValue?_hexDigit : ∀ n < 16, hexValue? (hexDigit n) = some n := by decide

/-- A code unit below the surrogates stands for itself, whatever follows it. -/
theorem Text.ofPieces_unit {n : Nat} (h : n < 0xD800) (rest : List Piece) :
    Text.ofPieces (.unit n :: rest) = (Text.ofPieces rest).map (Char.ofNat n :: ·) := by
  have hhigh : isHighSurrogate n = false := by simp [isHighSurrogate]; omega
  have hlow : isLowSurrogate n = false := by simp [isLowSurrogate]; omega
  cases rest with
  | nil => simp [Text.ofPieces, hhigh, hlow]
  | cons piece rest => cases piece <;> simp [Text.ofPieces, hhigh, hlow]

theorem text?_short {e c : Char} (h : unescape? e = some c) (cs : List Char) :
    text? ('\\' :: e :: cs) = (text? cs).map fun (text, rest) => (text.map (c :: ·), rest) := by
  have hu : e ≠ 'u' := by
    rintro rfl
    cases h
  have hpieces := pieces?.eq_4 e cs fun _ _ _ _ _ he _ => hu he
  rw [text?, text?, hpieces, h]
  cases pieces? cs <;> rfl

theorem text?_unit {a b c d : Char} {n : Nat} (h : unitOf? a b c d = some n) (hn : n < 0xD800)
    (cs : List Char) :
    text? ('\\' :: 'u' :: a :: b :: c :: d :: cs) =
      (text? cs).map fun (text, rest) => (text.map (Char.ofNat n :: ·), rest) := by
  rw [text?, text?, pieces?.eq_3, h]
  cases pieces? cs with
  | none => rfl
  | some found => simp [Text.ofPieces_unit hn]

theorem text?_char {c : Char} (hquote : c ≠ '"') (hslash : c ≠ '\\') (hc : ¬ c.toNat < 0x20)
    (cs : List Char) :
    text? (c :: cs) = (text? cs).map fun (text, rest) => (text.map (c :: ·), rest) := by
  have hpieces := pieces?.eq_5 c cs hquote (fun _ _ _ _ _ h _ => hslash h)
    fun _ _ h _ => hslash h
  rw [text?, text?, hpieces, if_neg hc]
  cases pieces? cs <;> rfl

theorem unitOf?_control {n : Nat} (h : n < 0x20) :
    unitOf? '0' '0' (hexDigit (n / 16)) (hexDigit (n % 16)) = some n := by
  have hhigh := hexValue?_hexDigit (n / 16) (by omega)
  have hlow := hexValue?_hexDigit (n % 16) (by omega)
  have hzero : hexValue? '0' = some 0 := by decide
  simp only [unitOf?, hzero, hhigh, hlow]
  congr 1
  omega

/-- **An escaped character is read back.** -/
theorem text?_escape (c : Char) (cs : List Char) :
    text? (escape c ++ cs) = (text? cs).map fun (text, rest) => (text.map (c :: ·), rest) := by
  unfold escape
  split_ifs with hquote hslash hback hfeed hline hreturn htab hcontrol
  · subst hquote
    exact text?_short rfl cs
  · subst hslash
    exact text?_short rfl cs
  · subst hback
    exact text?_short rfl cs
  · subst hfeed
    exact text?_short rfl cs
  · subst hline
    exact text?_short rfl cs
  · subst hreturn
    exact text?_short rfl cs
  · subst htab
    exact text?_short rfl cs
  · have hread := text?_unit (unitOf?_control hcontrol) (by omega) cs
    rw [Char.ofNat_toNat] at hread
    exact hread
  · exact text?_char hquote hslash hcontrol cs

theorem text?_escaped (cs rest : List Char) :
    text? (cs.flatMap escape ++ '"' :: rest) = some (some cs, rest) := by
  induction cs with
  | nil => rfl
  | cons c cs ih => rw [List.flatMap_cons, List.append_assoc, text?_escape, ih]; rfl

theorem exists_text?_write (text : Text) :
    ∃ cs, text.write = '"' :: cs ∧ ∀ rest, text? (cs ++ rest) = some (text, rest) := by
  cases text with
  | none => exact ⟨_, rfl, fun _ => rfl⟩
  | some cs =>
    refine ⟨cs.flatMap escape ++ ['"'], rfl, fun rest => ?_⟩
    rw [List.append_assoc]
    exact text?_escaped cs rest

/-! ## Steps of the reader -/

theorem value?_skip (fuel : Nat) (cs : List Char) : value? fuel (skip cs) = value? fuel cs := by
  cases fuel with
  | zero => rfl
  | succ fuel => simp only [value?, skip_skip]

theorem value?_blank {blanks : List Char} (h : AllSpace blanks) (fuel : Nat) (cs : List Char) :
    value? fuel (blanks ++ cs) = value? fuel cs := by
  rw [← value?_skip, skip_append h, value?_skip]

theorem items?_skip (fuel : Nat) (cs : List Char) : items? fuel (skip cs) = items? fuel cs := by
  cases fuel with
  | zero => rfl
  | succ fuel => simp only [items?, value?_skip]

theorem fields?_skip (fuel : Nat) (cs : List Char) : fields? fuel (skip cs) = fields? fuel cs := by
  cases fuel with
  | zero => rfl
  | succ fuel => simp only [fields?, skip_skip]

theorem value?_bracket (fuel : Nat) (cs : List Char) : value? fuel (']' :: cs) = none := by
  cases fuel with
  | zero => rfl
  | succ fuel =>
    simp [value?, skip_cons, isSpace, number?, unsigned?, wholePart?, digits?,
      List.span_eq_takeWhile_dropWhile]

theorem items?_bracket (fuel : Nat) (cs : List Char) : items? fuel (']' :: cs) = none := by
  cases fuel with
  | zero => rfl
  | succ fuel => simp only [items?, value?_bracket]

theorem fields?_brace (fuel : Nat) (cs : List Char) : fields? fuel ('}' :: cs) = none := by
  cases fuel with
  | zero => rfl
  | succ fuel => simp [fields?, skip_cons, isSpace]

theorem value?_array {fuel : Nat} {cs rest : List Char} {items : List Value}
    (h : items? fuel cs = some (items, rest)) :
    value? (fuel + 1) ('[' :: cs) = some (.array items, rest) := by
  rw [← items?_skip] at h
  simp (disch := decide) only [value?, skip_cons]
  split
  · next hclosed =>
    rw [hclosed, items?_bracket] at h
    cases h
  · rw [h]
    rfl

theorem value?_object {fuel : Nat} {cs rest : List Char} {fields : List (Text × Value)}
    (h : fields? fuel cs = some (fields, rest)) :
    value? (fuel + 1) ('{' :: cs) = some (.object fields, rest) := by
  rw [← fields?_skip] at h
  simp (disch := decide) only [value?, skip_cons]
  split
  · next hclosed =>
    rw [hclosed, fields?_brace] at h
    cases h
  · rw [h]
    rfl

theorem items?_last {fuel : Nat} {cs gap rest : List Char} {value : Value}
    (h : value? fuel cs = some (value, gap ++ ']' :: rest)) (hgap : AllSpace gap) :
    items? (fuel + 1) cs = some ([value], rest) := by
  simp (disch := decide) only [items?, h, skip_append hgap, skip_cons]

theorem items?_more {fuel : Nat} {cs rest : List Char} {value : Value}
    (h : value? fuel cs = some (value, ',' :: rest)) :
    items? (fuel + 1) cs =
      (items? fuel rest).map fun (later, rest) => (value :: later, rest) := by
  simp (disch := decide) only [items?, h, skip_cons]

section
variable {fuel : Nat} {blanks cs rest : List Char} {value : Value} (name : Text)

theorem fields?_last {gap : List Char} (hblanks : AllSpace blanks)
    (h : value? fuel cs = some (value, gap ++ '}' :: rest)) (hgap : AllSpace gap) :
    fields? (fuel + 1) (blanks ++ (name.write ++ ':' :: cs)) = some ([(name, value)], rest) := by
  obtain ⟨literal, hliteral, hread⟩ := exists_text?_write name
  simp (disch := decide) only [fields?, skip_append hblanks, hliteral, List.cons_append, skip_cons,
    hread, h, skip_append hgap]

theorem fields?_more (hblanks : AllSpace blanks)
    (h : value? fuel cs = some (value, ',' :: rest)) :
    fields? (fuel + 1) (blanks ++ (name.write ++ ':' :: cs)) =
      (fields? fuel rest).map fun (later, rest) => ((name, value) :: later, rest) := by
  obtain ⟨literal, hliteral, hread⟩ := exists_text?_write name
  simp (disch := decide) only [fields?, skip_append hblanks, hliteral, List.cons_append, skip_cons,
    hread, h]

end

/-! ## Written values -/

namespace Layout

/-- The layout puts only blanks around what it lays out. -/
structure Blank (l : Layout) : Prop where
  lineStart : ∀ level, AllSpace (l.lineStart level)
  colon : ∃ gap, l.colon = ':' :: gap ∧ AllSpace gap

theorem compact_blank : compact.Blank := ⟨fun _ => .nil, [], rfl, .nil⟩

theorem pretty_blank : pretty.Blank where
  lineStart level := by
    intro c hc
    rcases List.mem_cons.1 hc with rfl | hc
    · rfl
    · rw [List.eq_of_mem_replicate hc]
      rfl
  colon := ⟨[' '], rfl, by simp [AllSpace, isSpace]⟩

/-- Texts at the starts of lines, with commas between them. -/
def rows (l : Layout) (level : Nat) (texts : List (List Char)) : List Char :=
  [','].intercalate (texts.map (l.lineStart level ++ ·))

theorem rows_singleton (l : Layout) (level : Nat) (text : List Char) :
    l.rows level [text] = l.lineStart level ++ text := by
  simp [rows]

theorem rows_cons (l : Layout) (level : Nat) (text : List Char) {later : List (List Char)}
    (h : later ≠ []) :
    l.rows level (text :: later) = l.lineStart level ++ text ++ ',' :: l.rows level later := by
  cases later with
  | nil => exact absurd rfl h
  | cons next later => simp [rows]

theorem enclose_of_ne_nil (l : Layout) (level : Nat) (opening closing : Char)
    {texts : List (List Char)} (h : texts ≠ []) :
    l.enclose level opening closing texts =
      opening :: (l.rows (level + 1) texts ++ (l.lineStart level ++ [closing])) := by
  simp [enclose, rows, h]

end Layout

namespace Value

/-- A written value is read back from the start of a text, with two calls for each character. -/
def ReadsBack (l : Layout) (value : Value) : Prop :=
  ∀ level fuel rest, 2 * (value.writeAt l level).length ≤ fuel →
    value? fuel (value.writeAt l level ++ rest) = some (value, rest)

/-- No part of the value is a number. -/
inductive NumberFree : Value → Prop
  | null : NumberFree null
  | bool (b : Bool) : NumberFree (bool b)
  | string (text : Text) : NumberFree (string text)
  | array {items : List Value} (h : ∀ item ∈ items, NumberFree item) : NumberFree (array items)
  | object {fields : List (Text × Value)} (h : ∀ field ∈ fields, NumberFree field.2) :
      NumberFree (object fields)

variable {l : Layout}

theorem items?_rows (hl : l.Blank) {item : Value} {items : List Value}
    (h : ∀ v ∈ item :: items, ReadsBack l v) (level : Nat) {gap : List Char} (hgap : AllSpace gap)
    (rest : List Char) {fuel : Nat}
    (hfuel : 2 * (l.rows level (writeItems l level (item :: items))).length < fuel) :
    items? fuel (l.rows level (writeItems l level (item :: items)) ++ (gap ++ ']' :: rest)) =
      some (item :: items, rest) := by
  induction items generalizing item fuel with
  | nil =>
    rw [List.forall_mem_cons] at h
    simp only [writeItems, Layout.rows_singleton, List.length_append, List.append_assoc]
      at hfuel ⊢
    obtain ⟨fuel, rfl⟩ : ∃ n, fuel = n + 1 := ⟨fuel - 1, by omega⟩
    refine items?_last ?_ hgap
    rw [value?_blank (hl.lineStart level)]
    exact h.1 level fuel _ (by omega)
  | cons next items ih =>
    rw [List.forall_mem_cons] at h
    rw [writeItems, Layout.rows_cons _ _ _ (by simp [writeItems])] at hfuel ⊢
    simp only [List.length_append, List.length_cons, List.append_assoc, List.cons_append]
      at hfuel ⊢
    obtain ⟨fuel, rfl⟩ : ∃ n, fuel = n + 1 := ⟨fuel - 1, by omega⟩
    have hvalue := h.1 level fuel
    rw [items?_more, ih h.2 (by omega)]
    · rfl
    · rw [value?_blank (hl.lineStart level)]
      exact hvalue _ (by omega)

theorem fields?_rows (hl : l.Blank) {field : Text × Value} {fields : List (Text × Value)}
    (h : ∀ f ∈ field :: fields, ReadsBack l f.2) (level : Nat) {gap : List Char}
    (hgap : AllSpace gap) (rest : List Char) {fuel : Nat}
    (hfuel : 2 * (l.rows level (writeFields l level (field :: fields))).length < fuel) :
    fields? fuel (l.rows level (writeFields l level (field :: fields)) ++ (gap ++ '}' :: rest)) =
      some (field :: fields, rest) := by
  obtain ⟨space, hcolon, hspace⟩ := hl.colon
  induction fields generalizing field fuel with
  | nil =>
    rw [List.forall_mem_cons] at h
    simp only [writeFields, Layout.rows_singleton, List.length_append, List.length_cons, hcolon,
      List.append_assoc, List.cons_append] at hfuel ⊢
    obtain ⟨fuel, rfl⟩ : ∃ n, fuel = n + 1 := ⟨fuel - 1, by omega⟩
    refine fields?_last field.1 (hl.lineStart level) ?_ hgap
    rw [value?_blank hspace]
    exact h.1 level fuel _ (by omega)
  | cons next fields ih =>
    rw [List.forall_mem_cons] at h
    rw [writeFields, Layout.rows_cons _ _ _ (by simp [writeFields])] at hfuel ⊢
    simp only [List.length_append, List.length_cons, hcolon, List.append_assoc, List.cons_append]
      at hfuel ⊢
    obtain ⟨fuel, rfl⟩ : ∃ n, fuel = n + 1 := ⟨fuel - 1, by omega⟩
    have hvalue := h.1 level fuel
    rw [fields?_more field.1 (hl.lineStart level), ih h.2 (by omega)]
    · rfl
    · rw [value?_blank hspace]
      exact hvalue _ (by omega)

theorem readsBack_array (hl : l.Blank) {items : List Value} (h : ∀ v ∈ items, ReadsBack l v) :
    ReadsBack l (array items) := by
  intro level fuel rest hfuel
  cases items with
  | nil =>
    simp only [writeAt, writeItems, Layout.enclose] at hfuel ⊢
    obtain ⟨fuel, rfl⟩ : ∃ n, fuel = n + 1 := ⟨fuel - 1, by simp at hfuel; omega⟩
    simp [value?, skip_cons, isSpace]
  | cons item items =>
    rw [writeAt, Layout.enclose_of_ne_nil _ _ _ _ (by simp [writeItems])] at hfuel ⊢
    simp only [List.length_append, List.length_cons, List.append_assoc, List.cons_append,
      List.nil_append] at hfuel ⊢
    obtain ⟨fuel, rfl⟩ : ∃ n, fuel = n + 1 := ⟨fuel - 1, by omega⟩
    exact value?_array (items?_rows hl h _ (hl.lineStart level) rest (by omega))

theorem readsBack_object (hl : l.Blank) {fields : List (Text × Value)}
    (h : ∀ f ∈ fields, ReadsBack l f.2) : ReadsBack l (object fields) := by
  intro level fuel rest hfuel
  cases fields with
  | nil =>
    simp only [writeAt, writeFields, Layout.enclose] at hfuel ⊢
    obtain ⟨fuel, rfl⟩ : ∃ n, fuel = n + 1 := ⟨fuel - 1, by simp at hfuel; omega⟩
    simp [value?, skip_cons, isSpace]
  | cons field fields =>
    rw [writeAt, Layout.enclose_of_ne_nil _ _ _ _ (by simp [writeFields])] at hfuel ⊢
    simp only [List.length_append, List.length_cons, List.append_assoc, List.cons_append,
      List.nil_append] at hfuel ⊢
    obtain ⟨fuel, rfl⟩ : ∃ n, fuel = n + 1 := ⟨fuel - 1, by omega⟩
    exact value?_object (fields?_rows hl h _ (hl.lineStart level) rest (by omega))

/-- **A written value is read back from the start of a text.** -/
theorem NumberFree.readsBack (hl : l.Blank) {value : Value} (h : NumberFree value) :
    ReadsBack l value := by
  induction h with
  | null =>
    rintro level (_ | fuel) rest hfuel
    · simp [writeAt] at hfuel
    · simp [writeAt, value?, skip_cons, isSpace]
  | bool b =>
    rintro level (_ | fuel) rest hfuel
    · cases b <;> simp [writeAt] at hfuel
    · cases b <;> simp [writeAt, value?, skip_cons, isSpace]
  | string text =>
    obtain ⟨literal, hliteral, hread⟩ := exists_text?_write text
    rintro level (_ | fuel) rest hfuel
    · simp [writeAt, hliteral] at hfuel
    · simp [writeAt, hliteral, value?, skip_cons, isSpace, hread]
  | array _ ih => exact readsBack_array hl ih
  | object _ ih => exact readsBack_object hl ih

end Value

section
variable {l : Layout} (hl : l.Blank) {value : Value} (h : value.NumberFree)
include hl h

/-- **A written document is read back,** also if blanks follow it. -/
theorem read?_write_append {blanks : String} (hblanks : AllSpace blanks.toList) :
    read? (value.write l ++ blanks) = some value := by
  have hskip : skip blanks.toList = [] := by
    have hall := skip_append hblanks []
    rwa [List.append_nil] at hall
  have hvalue := h.readsBack hl 0 (2 * (value.writeAt l 0 ++ blanks.toList).length + 2)
    blanks.toList (by rw [List.length_append]; omega)
  have hdocument : (value.write l ++ blanks).toList = value.writeAt l 0 ++ blanks.toList := by
    simp [Value.write]
  simp only [read?, hdocument, hvalue, hskip, List.isEmpty_nil, if_true]

theorem read?_write : read? (value.write l) = some value := by
  rw [← String.append_empty (s := value.write l)]
  exact read?_write_append hl h .nil

end

end PhraseStructure.Json
