import PhraseStructure.Proofs.LineReports

/-!
# What is reported about the block

That a block was never closed, or that a row stands outside of it, is found out by a reader that
keeps two things in hand: whether it is inside the block, and the first line that opened one. Both
are compared here with the lines themselves, where a block is open after a line if an earlier one
opened it and none since has ended it (`Reading.Open`). Which lines open and end a block can be
taken from what they say (`asRead`), or from their braces alone, also where the rest of the line is
malformed (`atFace`). The two differ on malformed lines only (`opens_atFace`, `ends_atFace`).

* `Outline.isInside_after`, `Outline.openedAt?_after`: the reader is inside the block if one is open
  as the lines are read, and has kept the first opening line.
* `unclosed_reported_at_first_opening`: an unclosed block is reported at the first opening line, so
  at its own one if no second block is reported.
* `block_reports_at_face`: a report about the block that its braces contradict comes with a report
  of a malformed line with a brace.
-/

namespace PhraseStructure.Source

/-! ## Blocks as they are read and as they look -/

namespace Line

/-- The line opens the block. -/
def isOpening : Line → Bool
  | openBlock _ _ => true
  | _ => false

/-- The line is a declaration. -/
def isHeader : Line → Bool
  | header _ _ => true
  | _ => false

/-- The line closes the block, which it may have opened itself. -/
def closes : Line → Bool
  | openBlock _ closes => closes
  | row _ closes => closes
  | closeBlock => true
  | _ => false

/-- The line opens the block and leaves it open. -/
def opens (line : Line) : Bool := line.isOpening && !line.closes

/-- After the line no block is open, since it closes the block or a declaration leaves it. -/
def ends (line : Line) : Bool := line.closes || line.isHeader

/-- The line is well formed and of a kind. -/
def reads (kind : Line → Bool) (chars : List Char) : Bool := (said? chars).any kind

variable {chars : List Char} {kind : Line → Bool} {line : Line}

theorem reads_of_said? (h : said? chars = some line) : reads kind chars = kind line := by
  rw [reads, h]
  rfl

theorem reads_iff : reads kind chars = true ↔ ∃ line, said? chars = some line ∧ kind line = true :=
  Option.any_eq_true _ _

theorem reads_nil (kind : Line → Bool) : reads kind [] = kind blank := rfl

theorem reads_isOpening_of_opens (h : reads opens chars = true) : reads isOpening chars = true := by
  obtain ⟨line, hsaid, hopens⟩ := reads_iff.1 h
  exact reads_iff.2 ⟨line, hsaid, (Bool.and_eq_true_iff.1 hopens).1⟩

/-- A row outside the block is refused for its place. -/
theorem ofChars_row_outside {row : Row} {closes : Bool} (h : said? chars = some (.row row closes)) :
    ofChars false chars = .error .ruleOutsideBlock := by
  obtain ⟨tokens, hscan, hspelled⟩ := said?_eq_some_iff.1 h
  rw [ofChars, hscan]
  cases hspelled with
  | row closes hrow =>
    obtain ⟨-, parts, -, -, rfl, -⟩ := hrow
    show ofTokens false (.word [row.lhs] :: .arrow :: _) = _
    -- Where the row has its arrow, every header has `=`.
    unfold ofTokens
    split <;> simp_all [ofBody]

end Line

/-- The last token of the line is a closing brace. -/
def closesAtFace (chars : List Char) : Bool :=
  match Token.scan chars with
  | .ok tokens => tokens.getLast? == some .closeBrace
  | .error _ => false

/-- The first tokens of the line are `P = {`, and the last one is no closing brace. -/
def opensAtFace (chars : List Char) : Bool :=
  match Token.scan chars with
  | .ok tokens => opening.isPrefixOf tokens && !(tokens.getLast? == some .closeBrace)
  | .error _ => false

/-- Which lines open a block and leave it open, and which end one. -/
structure Reading where
  opens : List Char → Bool
  ends : List Char → Bool

/-- Only what well-formed lines say counts. -/
def asRead : Reading where
  opens := Line.reads Line.opens
  ends := Line.reads Line.ends

/-- Every brace counts, whether or not the rest of its line is well formed. -/
def atFace : Reading where
  opens := opensAtFace
  ends := fun chars => closesAtFace chars || Line.reads Line.isHeader chars

/-- The block that line `m` opened is open after line `k`. -/
structure Reading.Open (r : Reading) (lines : List (List Char)) (m k : Nat) : Prop where
  le : m ≤ k
  opens : r.opens (lineAt lines m) = true
  goes_on : ∀ j ≤ k, m < j → r.ends (lineAt lines j) = false

instance (r : Reading) (lines : List (List Char)) (m k : Nat) : Decidable (r.Open lines m k) :=
  decidable_of_iff (m ≤ k ∧ r.opens (lineAt lines m) = true ∧
      ∀ j ≤ k, m < j → r.ends (lineAt lines j) = false)
    ⟨fun ⟨hle, hopens, hends⟩ => ⟨hle, hopens, hends⟩, fun h => ⟨h.le, h.opens, h.goes_on⟩⟩

/-- Line `n` opens a block, and no line before it does. -/
def FirstOpening (lines : List (List Char)) (n : Nat) : Prop :=
  Line.reads Line.isOpening (lineAt lines n) = true ∧
    ∀ j < n, Line.reads Line.isOpening (lineAt lines j) = false

/-- The text ends after line `k`, or goes on with a declaration. -/
def LeavesAfter (lines : List (List Char)) (k : Nat) : Prop :=
  k = lines.length ∨ Line.reads Line.isHeader (lineAt lines (k + 1)) = true

instance (lines : List (List Char)) (k : Nat) : Decidable (LeavesAfter lines k) :=
  inferInstanceAs (Decidable (_ ∨ _))

/-- Line `m` is malformed, and this is reported. -/
def ReportedMalformed (lines : List (List Char)) (problems : List Problem) (m : Nat) : Prop :=
  ∃ cause, Line.ofChars true (lineAt lines m) = .error cause ∧ .atLine m cause ∈ problems

section Lines

variable {lines : List (List Char)} {kind : Line → Bool} {m n k : Nat}

theorem le_length_of_ne_nil (h : lineAt lines n ≠ []) : 0 < n ∧ n ≤ lines.length := by
  cases n with
  | zero => exact absurd rfl h
  | succ n =>
    refine ⟨Nat.succ_pos n, ?_⟩
    by_contra hlength
    refine h ?_
    rw [lineAt, List.getElem?_eq_none (by omega)]
    rfl

/-- A line that is not blank is one of the text. -/
theorem le_length_of_reads (hblank : kind .blank = false)
    (h : Line.reads kind (lineAt lines n) = true) : 0 < n ∧ n ≤ lines.length := by
  refine le_length_of_ne_nil ?_
  intro hnil
  rw [hnil, Line.reads_nil, hblank] at h
  cases h

theorem lt_length_of_row {row : Row} {closes : Bool}
    (h : Line.said? (lineAt lines (n + 1)) = some (.row row closes)) : n < lines.length := by
  have hreads : Line.reads Line.belongsInBlock (lineAt lines (n + 1)) = true :=
    Line.reads_of_said? h
  exact (le_length_of_reads rfl hreads).2

theorem LeavesAfter.le_length (h : LeavesAfter lines k) : k ≤ lines.length := by
  rcases h with rfl | h
  · exact Nat.le_refl _
  · exact Nat.le_of_succ_le (le_length_of_reads rfl h).2

theorem exists_firstOpening (h : Line.reads Line.isOpening (lineAt lines n) = true) :
    ∃ a ≤ n, FirstOpening lines a := by
  induction n using Nat.strongRecOn with
  | ind n ih =>
    by_cases hbefore : ∃ j < n, Line.reads Line.isOpening (lineAt lines j) = true
    · obtain ⟨j, hj, hopening⟩ := hbefore
      obtain ⟨a, ha, hfirst⟩ := ih j hj hopening
      exact ⟨a, by omega, hfirst⟩
    · refine ⟨n, Nat.le_refl n, h, ?_⟩
      intro j hj
      rw [← Bool.not_eq_true]
      exact fun hopening => hbefore ⟨j, hj, hopening⟩

theorem FirstOpening.le (h : FirstOpening lines n)
    (hm : Line.reads Line.isOpening (lineAt lines m) = true) : n ≤ m := by
  by_contra hlt
  rw [h.2 m (by omega)] at hm
  cases hm

namespace Reading

variable {r : Reading}

theorem Open.mono {j : Nat} (h : r.Open lines m k) (hmj : m ≤ j) (hjk : j ≤ k) :
    r.Open lines m j :=
  ⟨hmj, h.opens, fun i hi hmi => h.goes_on i (Nat.le_trans hi hjk) hmi⟩

/-- **One more line**: an open block stays open if the line does not end it, and the line may open
one. -/
theorem open_succ : r.Open lines m (k + 1) ↔
    r.Open lines m k ∧ r.ends (lineAt lines (k + 1)) = false ∨
      m = k + 1 ∧ r.opens (lineAt lines (k + 1)) = true := by
  constructor
  · intro h
    rcases Nat.lt_or_eq_of_le h.le with hm | rfl
    · exact .inl ⟨h.mono (by omega) (by omega), h.goes_on (k + 1) (Nat.le_refl _) hm⟩
    · exact .inr ⟨rfl, h.opens⟩
  · rintro (⟨⟨hm, hopens, hends⟩, hend⟩ | ⟨rfl, hopens⟩)
    · refine ⟨by omega, hopens, ?_⟩
      intro j hj hmj
      rcases Nat.lt_or_eq_of_le hj with hj | rfl
      · exact hends j (by omega) hmj
      · exact hend
    · exact ⟨Nat.le_refl _, hopens, fun j hj hmj => by omega⟩

end Reading

end Lines

/-! ## What the reader has in hand -/

namespace Block

variable (b : Block) (number : Nat) (line : Line)

theorem isInside_step :
    (b.step number line).isInside = (line.opens || b.isInside && !line.ends) := by
  cases line with
  | openBlock row closes => cases closes <;> cases b <;> rfl
  | row row closes => cases closes <;> cases b <;> rfl
  | _ => cases b <;> rfl

theorem openedAt?_step : (b.step number line).openedAt? =
    b.openedAt?.or (if line.isOpening then some number else none) := by
  cases line with
  | openBlock row closes => cases closes <;> cases b <;> rfl
  | row row closes => cases closes <;> cases b <;> rfl
  | _ => cases b <;> rfl

theorem eq_inside_iff {b : Block} {openedAt : Nat} :
    b = inside openedAt ↔ b.isInside = true ∧ b.openedAt? = some openedAt := by
  cases b <;> simp [isInside, openedAt?]

end Block

namespace Outline

variable {lines : List (List Char)} {chars : List Char} {m n k number : Nat}

theorem isInside_readLine (o : Outline) :
    (o.readLine (chars, number)).block.isInside = true ↔
      asRead.opens chars = true ∨ o.block.isInside = true ∧ asRead.ends chars = false := by
  rw [block_readLine]
  show _ ↔ (Line.said? chars).any Line.opens = true ∨
    _ ∧ (Line.said? chars).any Line.ends = false
  cases Line.said? chars with
  | none => simp
  | some line => simp [Block.isInside_step]

theorem openedAt?_readLine (o : Outline) :
    (o.readLine (chars, number)).block.openedAt? =
      o.block.openedAt?.or (if Line.reads Line.isOpening chars then some number else none) := by
  rw [block_readLine, Line.reads]
  cases Line.said? chars with
  | none => simp
  | some line => exact Block.openedAt?_step _ _ line

/-- **The reader is inside the block** if one is open as the lines are read. -/
theorem isInside_after (hn : n ≤ lines.length) :
    (after lines n).block.isInside = true ↔ ∃ m, asRead.Open lines m n := by
  induction n with
  | zero =>
    refine iff_of_false (by simp [after_zero, Block.isInside]) ?_
    rintro ⟨m, hm, hopens, -⟩
    obtain rfl := Nat.le_zero.1 hm
    cases hopens
  | succ n ih =>
    rw [after_succ hn, isInside_readLine, ih (Nat.le_of_succ_le hn)]
    simp only [Reading.open_succ]
    constructor
    · rintro (hopens | ⟨⟨m, hm⟩, hends⟩)
      · exact ⟨n + 1, .inr ⟨rfl, hopens⟩⟩
      · exact ⟨m, .inl ⟨hm, hends⟩⟩
    · rintro ⟨m, ⟨hm, hends⟩ | ⟨-, hopens⟩⟩
      · exact .inr ⟨⟨m, hm⟩, hends⟩
      · exact .inl hopens

/-- **The reader keeps the first opening line.** -/
theorem openedAt?_after {a : Nat} (hn : n ≤ lines.length) :
    (after lines n).block.openedAt? = some a ↔ a ≤ n ∧ FirstOpening lines a := by
  induction n generalizing a with
  | zero =>
    refine iff_of_false (by simp [after_zero, Block.openedAt?]) ?_
    rintro ⟨ha, hopening, -⟩
    obtain rfl := Nat.le_zero.1 ha
    cases hopening
  | succ n ih =>
    have ih : ∀ {a}, (after lines n).block.openedAt? = some a ↔ a ≤ n ∧ FirstOpening lines a :=
      ih (Nat.le_of_succ_le hn)
    rw [after_succ hn, openedAt?_readLine, Option.or_eq_some_iff, Option.ite_none_right_eq_some]
    constructor
    · rintro (h | ⟨hnone, hopening, heq⟩)
      · exact ⟨Nat.le_succ_of_le (ih.1 h).1, (ih.1 h).2⟩
      · -- Nothing has been kept, so none of the lines before opens a block.
        obtain rfl := Option.some.inj heq
        refine ⟨Nat.le_refl _, hopening, ?_⟩
        intro j hj
        rw [← Bool.not_eq_true]
        intro hbefore
        obtain ⟨a, ha, hfirst⟩ := exists_firstOpening hbefore
        rw [ih.2 ⟨by omega, hfirst⟩] at hnone
        cases hnone
    · rintro ⟨ha, hfirst⟩
      rcases Nat.lt_or_eq_of_le ha with ha | rfl
      · exact .inl (ih.2 ⟨by omega, hfirst⟩)
      · refine .inr ⟨?_, hfirst.1, rfl⟩
        rw [Option.eq_none_iff_forall_ne_some]
        intro a hopened
        obtain ⟨ha, hfirst'⟩ := ih.1 hopened
        have := hfirst.le hfirst'.1
        omega

theorem block_after_eq_inside_iff {a : Nat} (hn : n ≤ lines.length) :
    (after lines n).block = .inside a ↔ (∃ m, asRead.Open lines m n) ∧ FirstOpening lines a := by
  rw [Block.eq_inside_iff, isInside_after hn, openedAt?_after hn]
  refine and_congr_right ?_
  rintro ⟨m, hm, hopens, -⟩
  -- The open block was opened at the first opening line or later.
  refine and_iff_right_of_imp fun hfirst => ?_
  exact Nat.le_trans (hfirst.le (Line.reads_isOpening_of_opens hopens)) hm

/-! ## Reports of lines about the block -/

/-- A block is reported as unclosed by the declaration that leaves it. -/
theorem raises_unclosed_iff {o : Outline} :
    o.Raises number (Line.ofChars o.block.isInside chars) (.atLine n .unclosedProductionBlock) ↔
      Line.reads Line.isHeader chars = true ∧ o.block = .inside n := by
  constructor
  · intro h
    generalize hline : Line.ofChars o.block.isInside chars = line at h
    cases h with
    | malformed =>
      rcases Line.failsFor_ofChars _ _ _ hline with h | ⟨-, h | h⟩
      · cases h
      · cases h
      · cases h
    | left hblock =>
      exact ⟨Line.reads_iff.2 ⟨_, (Line.ofChars_eq_ok_iff_said?.1 hline).1, rfl⟩, hblock⟩
  · rintro ⟨hheader, hblock⟩
    obtain ⟨line, hsaid, hline⟩ := Line.reads_iff.1 hheader
    cases line with
    | header sec words =>
      rw [Line.ofChars_eq_ok_iff_said?.2 ⟨hsaid, fun h => by cases h⟩]
      exact .left hblock
    | _ => cases hline

theorem mem_problems_unclosed_iff :
    .atLine n .unclosedProductionBlock ∈ (ofLines lines).problems ↔
      FirstOpening lines n ∧ ∃ m k, asRead.Open lines m k ∧ LeavesAfter lines k := by
  rw [mem_problems_ofLines]
  constructor
  · rintro (⟨k, hk, hraises⟩ | ⟨openedAt, hblock, heq⟩)
    · obtain ⟨hheader, hblock⟩ := raises_unclosed_iff.1 hraises
      obtain ⟨⟨m, hm⟩, hfirst⟩ := (block_after_eq_inside_iff (Nat.le_of_lt hk)).1 hblock
      exact ⟨hfirst, m, k, hm, .inr hheader⟩
    · cases heq
      obtain ⟨⟨m, hm⟩, hfirst⟩ := (block_after_eq_inside_iff (Nat.le_refl _)).1 hblock
      exact ⟨hfirst, m, _, hm, .inl rfl⟩
  · rintro ⟨hfirst, m, k, hm, hleaves⟩
    have hblock : (after lines k).block = .inside n :=
      (block_after_eq_inside_iff hleaves.le_length).2 ⟨⟨m, hm⟩, hfirst⟩
    rcases hleaves with rfl | hheader
    · exact .inr ⟨n, hblock, rfl⟩
    · exact .inl ⟨k, (le_length_of_reads rfl hheader).2, raises_unclosed_iff.2 ⟨hheader, hblock⟩⟩

/-- Every opening line but the first is reported. -/
theorem mem_problems_reopened (hfirst : FirstOpening lines n) (hlt : n < m)
    (hopening : Line.reads Line.isOpening (lineAt lines m) = true) :
    .atLine m (.duplicateSection blockLetter) ∈ (ofLines lines).problems := by
  have hm := le_length_of_reads rfl hopening
  obtain ⟨k, rfl⟩ : ∃ k, m = k + 1 := ⟨m - 1, by omega⟩
  have hopened : (after lines k).block.openedAt? = some n :=
    (openedAt?_after (Nat.le_of_succ_le hm.2)).2 ⟨by omega, hfirst⟩
  obtain ⟨line, hsaid, hline⟩ := Line.reads_iff.1 hopening
  refine mem_problems_ofLines.2 (.inl ⟨k, hm.2, ?_⟩)
  cases line with
  | openBlock row closes =>
    rw [readAt, Line.ofChars_eq_ok_iff_said?.2 ⟨hsaid, fun h => by cases h⟩]
    exact .reopened (Option.isSome_of_eq_some hopened)
  | _ => cases hline

/-- A row is only reported to be outside the block where the reader is. -/
theorem not_isInside_of_ruleOutsideBlock
    (h : .atLine (n + 1) .ruleOutsideBlock ∈ (ofLines lines).problems) :
    n ≤ lines.length ∧ (after lines n).block.isInside = false := by
  rcases mem_problems_ofLines.1 h with ⟨k, hk, hraises⟩ | ⟨openedAt, -, heq⟩
  · generalize hline : readAt lines k = line at hraises
    cases hraises with
    | malformed =>
      rcases Line.failsFor_ofChars _ _ _ hline with h | ⟨hin, -⟩
      · cases h
      · exact ⟨Nat.le_of_lt hk, hin⟩
  · cases heq

/-- So is a closing brace on a line of its own. -/
theorem not_isInside_of_closeBrace (hbrace : Token.scan (lineAt lines (n + 1)) = .ok [.closeBrace])
    (h : .atLine (n + 1) (.unexpectedToken "\x7d") ∈ (ofLines lines).problems) :
    n ≤ lines.length ∧ (after lines n).block.isInside = false := by
  rcases mem_problems_ofLines.1 h with ⟨k, hk, hraises⟩ | ⟨openedAt, -, heq⟩
  · generalize hline : readAt lines k = line at hraises
    cases hraises with
    | malformed =>
      refine ⟨Nat.le_of_lt hk, ?_⟩
      rw [← Bool.not_eq_true]
      intro hin
      rw [readAt, hin, Line.ofChars, hbrace] at hline
      cases hline
  · cases heq

/-- A row is reported where the reader is outside the block. -/
theorem mem_problems_ruleOutsideBlock {row : Row} {closes : Bool}
    (hrow : Line.said? (lineAt lines (n + 1)) = some (.row row closes))
    (houtside : (after lines n).block.isInside = false) :
    .atLine (n + 1) .ruleOutsideBlock ∈ (ofLines lines).problems := by
  refine mem_problems_ofLines.2 (.inl ⟨n, lt_length_of_row hrow, ?_⟩)
  rw [readAt, houtside, Line.ofChars_row_outside hrow]
  exact .malformed

end Outline

/-! ## The two readings -/

section Face

variable {chars : List Char} {tokens : List Token} {line : Line}

theorem isPrefixOf_opening (h : line.Spelled tokens) :
    opening.isPrefixOf tokens = line.isOpening := by
  cases h with
  | blank => rfl
  | header sec words => cases words <;> cases sec <;> rfl
  | openBlock closes => cases closes <;> rfl
  | openBlockRow closes h => exact List.isPrefixOf_iff_prefix.2 ⟨_, rfl⟩
  | @row row tokens closes h =>
    obtain ⟨-, parts, -, -, rfl, -⟩ := h
    -- The second tokens differ, whatever the left-hand side is.
    show (_ && (Token.equals == Token.arrow && _)) = false
    exact Bool.and_false _
  | closeBlock => rfl

theorem getLast?_append_closing (h : tokens.getLast? ≠ some .closeBrace) (closes : Bool) :
    ((tokens ++ closing closes).getLast? == some .closeBrace) = closes := by
  cases closes with
  | false => simpa [closing] using h
  | true => simp [closing]

theorem getLast?_eq_closes (h : line.Spelled tokens) :
    (tokens.getLast? == some .closeBrace) = line.closes := by
  cases h with
  | blank => rfl
  | header sec words =>
    show _ = false
    rw [beq_eq_false_iff_ne]
    intro hlast
    simpa using List.mem_of_getLast? hlast
  | openBlock closes => cases closes <;> rfl
  | @openBlockRow row tokens closes h =>
    -- The brace is only found after the row, since the row itself does not end with one.
    have hne : (opening ++ tokens).getLast? ≠ some .closeBrace := by
      rw [List.getLast?_append]
      cases hlast : tokens.getLast? with
      | none => simp [opening]
      | some last =>
        have hne := h.getLast?_ne
        rwa [hlast] at hne
    rw [← List.append_assoc]
    exact getLast?_append_closing hne closes
  | row closes h => exact getLast?_append_closing h.getLast?_ne closes
  | closeBlock => rfl

/-- **The readings agree on well-formed lines.** -/
theorem opens_atFace (h : Line.said? chars = some line) : atFace.opens chars = line.opens := by
  obtain ⟨tokens, hscan, hspelled⟩ := Line.said?_eq_some_iff.1 h
  show opensAtFace chars = _
  rw [opensAtFace, hscan]
  simp only
  rw [isPrefixOf_opening hspelled, getLast?_eq_closes hspelled]
  rfl

theorem ends_atFace (h : Line.said? chars = some line) : atFace.ends chars = line.ends := by
  obtain ⟨tokens, hscan, hspelled⟩ := Line.said?_eq_some_iff.1 h
  show (closesAtFace chars || _) = _
  rw [closesAtFace, hscan, Line.reads_of_said? h]
  simp only
  rw [getLast?_eq_closes hspelled]
  rfl

theorem opens_atFace_of_asRead (h : asRead.opens chars = true) : atFace.opens chars = true := by
  obtain ⟨line, hsaid, hopens⟩ := Line.reads_iff.1 h
  rw [opens_atFace hsaid, hopens]

theorem ends_atFace_of_asRead (h : asRead.ends chars = true) : atFace.ends chars = true := by
  obtain ⟨line, hsaid, hends⟩ := Line.reads_iff.1 h
  rw [ends_atFace hsaid, hends]

/-- A line that starts with `P = {` is read in the same way wherever it stands. -/
theorem ofChars_of_opens_atFace (h : atFace.opens chars = true) (inBlock : Bool) :
    Line.ofChars inBlock chars = Line.ofChars true chars := by
  change opensAtFace chars = true at h
  rw [opensAtFace] at h
  rw [Line.ofChars, Line.ofChars]
  cases hscan : Token.scan chars with
  | error cause => rfl
  | ok tokens =>
    rw [hscan, Bool.and_eq_true_iff, List.isPrefixOf_iff_prefix] at h
    obtain ⟨⟨rest, rfl⟩, -⟩ := h
    rfl

end Face

theorem Reading.Open.asRead_of_atFace {lines : List (List Char)} {m n : Nat} {line : Line}
    (h : atFace.Open lines m n) (hsaid : Line.said? (lineAt lines m) = some line) :
    asRead.Open lines m n := by
  refine ⟨h.le, ?_, ?_⟩
  · have hopens := h.opens
    rw [opens_atFace hsaid] at hopens
    exact Line.reads_iff.2 ⟨line, hsaid, hopens⟩
  · intro j hj hmj
    rw [← Bool.not_eq_true]
    intro hends
    have hends' := ends_atFace_of_asRead hends
    rw [h.goes_on j hj hmj] at hends'
    cases hends'

/-- By its braces a block may be closed where the reader goes on. -/
theorem Reading.Open.exists_ends_atFace {lines : List (List Char)} {m n : Nat}
    (h : asRead.Open lines m n) (hface : ¬ atFace.Open lines m n) :
    ∃ j ≤ n, m < j ∧ atFace.ends (lineAt lines j) = true := by
  by_contra hnone
  refine hface ⟨h.le, opens_atFace_of_asRead h.opens, ?_⟩
  intro j hj hmj
  rw [← Bool.not_eq_true]
  exact fun hends => hnone ⟨j, hj, hmj, hends⟩

namespace Outline

variable {lines : List (List Char)} {cause : Cause} {m n j k : Nat}

theorem reportedMalformed_of_readAt (hk : k < lines.length)
    (h : Line.ofChars true (lineAt lines (k + 1)) = .error cause)
    (hread : readAt lines k = Line.ofChars true (lineAt lines (k + 1))) :
    ReportedMalformed lines (ofLines lines).problems (k + 1) := by
  refine ⟨cause, h, mem_problems_ofLines.2 (.inl ⟨k, hk, ?_⟩)⟩
  rw [hread, h]
  exact .malformed

/-- A malformed line that starts with `P = {` is reported wherever it stands. -/
theorem reportedMalformed_of_opens (hm : m ≤ lines.length)
    (hopens : atFace.opens (lineAt lines m) = true) (hsaid : Line.said? (lineAt lines m) = none) :
    ReportedMalformed lines (ofLines lines).problems m := by
  obtain ⟨cause, hcause⟩ := Line.said?_eq_none_iff.1 hsaid
  cases m with
  | zero => cases hcause
  | succ k => exact reportedMalformed_of_readAt hm hcause (ofChars_of_opens_atFace hopens _)

/-- **If the reader misses an open block, its opening line is malformed.** -/
theorem reportedMalformed_of_outside (hn : n ≤ lines.length)
    (houtside : (after lines n).block.isInside = false) (hopen : atFace.Open lines m n) :
    ReportedMalformed lines (ofLines lines).problems m := by
  cases hsaid : Line.said? (lineAt lines m) with
  | none => exact reportedMalformed_of_opens (Nat.le_trans hopen.le hn) hopen.opens hsaid
  | some line =>
    rw [(isInside_after hn).2 ⟨m, hopen.asRead_of_atFace hsaid⟩] at houtside
    cases houtside

/-- **If the reader misses the end of a block, that line is malformed.** -/
theorem reportedMalformed_of_ends (hk : k ≤ lines.length) (hopen : asRead.Open lines m k)
    (hj : j ≤ k) (hmj : m < j) (hends : atFace.ends (lineAt lines j) = true) :
    ReportedMalformed lines (ofLines lines).problems j := by
  cases hsaid : Line.said? (lineAt lines j) with
  | some line =>
    have hread : asRead.ends (lineAt lines j) = true :=
      Line.reads_iff.2 ⟨line, hsaid, (ends_atFace hsaid).symm.trans hends⟩
    rw [hopen.goes_on j hj hmj] at hread
    cases hread
  | none =>
    -- The reader is still inside the block before this line, so it takes the line for a row of it.
    obtain ⟨cause, hcause⟩ := Line.said?_eq_none_iff.1 hsaid
    obtain ⟨i, rfl⟩ : ∃ i, j = i + 1 := ⟨j - 1, by omega⟩
    have hinside : (after lines i).block.isInside = true :=
      (isInside_after (by omega)).2 ⟨m, hopen.mono (by omega) (by omega)⟩
    exact reportedMalformed_of_readAt (by omega) hcause (by rw [readAt, hinside])

end Outline

/-! ## Reports -/

section Reports

variable {maxRules : Nat} {text : String} {lines : List (List Char)} {problems : List Problem}

/-- **An unclosed block is reported at the first opening line of the text.** It is reported exactly
if some block is still open where a declaration follows or the text ends. That block is the one
which the reported line opened, unless a later opening line is reported as well, as a second
block. -/
theorem unclosed_reported_at_first_opening (hlines : Text.lines text.toList = lines)
    (hread : read maxRules text = .error problems) :
    (∀ n, .atLine n .unclosedProductionBlock ∈ problems ↔
      FirstOpening lines n ∧ ∃ m k, asRead.Open lines m k ∧ LeavesAfter lines k) ∧
    (∀ n m k, FirstOpening lines n → asRead.Open lines m k →
      n = m ∨ n < m ∧ .atLine m (.duplicateSection blockLetter) ∈ problems) ∧
    ((∀ m, .atLine m (.duplicateSection blockLetter) ∉ problems) →
      ∀ n, .atLine n .unclosedProductionBlock ∈ problems ↔
        ∃ k, asRead.Open lines n k ∧ LeavesAfter lines k) := by
  subst hlines
  have hreported : ∀ n, .atLine n .unclosedProductionBlock ∈ problems ↔ _ := fun n =>
    Iff.trans ⟨fun h => mem_ofLines_of_mem hread h id, mem_of_mem_ofLines hread⟩
      Outline.mem_problems_unclosed_iff
  have hopener : ∀ n m k, FirstOpening (Text.lines text.toList) n →
      asRead.Open (Text.lines text.toList) m k →
      n = m ∨ n < m ∧ .atLine m (.duplicateSection blockLetter) ∈ problems := by
    intro n m k hfirst hopen
    have hopening := Line.reads_isOpening_of_opens hopen.opens
    rcases Nat.eq_or_lt_of_le (hfirst.le hopening) with heq | hlt
    · exact .inl heq
    · exact .inr ⟨hlt,
        mem_of_mem_ofLines hread (Outline.mem_problems_reopened hfirst hlt hopening)⟩
  refine ⟨hreported, hopener, ?_⟩
  intro honce n
  rw [hreported]
  constructor
  · rintro ⟨hfirst, m, k, hopen, hleaves⟩
    rcases hopener n m k hfirst hopen with rfl | ⟨-, hagain⟩
    · exact ⟨k, hopen, hleaves⟩
    · exact absurd hagain (honce m)
  · rintro ⟨k, hopen, hleaves⟩
    obtain ⟨a, -, hfirst⟩ := exists_firstOpening (Line.reads_isOpening_of_opens hopen.opens)
    rcases hopener a n k hfirst hopen with rfl | ⟨-, hagain⟩
    · exact ⟨hfirst, a, k, hopen, hleaves⟩
    · exact absurd hagain (honce n)

/-- A block with a malformed row, which a declaration leaves. -/
def leftText : String := "P = \x7b S -> a\nS a\nS = S\nS -> b"

/-- What is reported of this text. -/
def leftProblems : List Problem :=
  [.atLine 2 .missingArrow, .atLine 1 .unclosedProductionBlock, .atLine 4 .ruleOutsideBlock]

/-- The block is reported at its own opening line, and only there. -/
theorem unclosed_reported_at_first_opening_left :
    read 10 leftText = .error leftProblems ∧
      (∀ m, .atLine m (.duplicateSection blockLetter) ∉ leftProblems) ∧
      asRead.Open (Text.lines leftText.toList) 1 2 ∧
      LeavesAfter (Text.lines leftText.toList) 2 ∧
      ∀ n, .atLine n .unclosedProductionBlock ∈ leftProblems ↔
        ∃ k, asRead.Open (Text.lines leftText.toList) n k ∧
          LeavesAfter (Text.lines leftText.toList) k := by
  have hread : read 10 leftText = .error leftProblems := rfl
  have honce : ∀ m, .atLine m (.duplicateSection blockLetter) ∉ leftProblems := by
    intro m
    simp [leftProblems, Located.atLine]
  exact ⟨hread, honce, by decide, by decide,
    (unclosed_reported_at_first_opening rfl hread).2.2 honce⟩

/-- A closed block, and a second one that is not closed. -/
def reopenedText : String := "S = S\nP = \x7b\nS -> a\n\x7d\nP = \x7b\nS -> b"

/-- The first one is reported as unclosed, although line 4 closes it. -/
theorem unclosed_reported_at_closed_block :
    read 10 reopenedText = .error [.atLine 5 (.duplicateSection blockLetter),
        .atLine 2 .unclosedProductionBlock] ∧
      asRead.ends (lineAt (Text.lines reopenedText.toList) 4) = true ∧
      (∀ k, ¬ (asRead.Open (Text.lines reopenedText.toList) 2 k ∧
        LeavesAfter (Text.lines reopenedText.toList) k)) ∧
      asRead.Open (Text.lines reopenedText.toList) 5 6 ∧
      LeavesAfter (Text.lines reopenedText.toList) 6 := by
  have hclosed : ∀ k ≤ 6, ¬ (asRead.Open (Text.lines reopenedText.toList) 2 k ∧
      LeavesAfter (Text.lines reopenedText.toList) k) := by decide
  exact ⟨rfl, by decide, fun k h => hclosed k h.2.le_length h, by decide, by decide⟩

/-- What is reported about the block is what its braces say, but for malformed lines with braces,
which are reported themselves. -/
structure AgreesAtFace (lines : List (List Char)) (problems : List Problem) : Prop where
  /-- A row is reported to stand outside the block only where none is open. -/
  row_outside : ∀ n m, .atLine (n + 1) .ruleOutsideBlock ∈ problems → atFace.Open lines m n →
    ReportedMalformed lines problems m
  /-- A closing brace is reported to stand outside the block only where none is open. -/
  brace_outside : ∀ n m, Token.scan (lineAt lines (n + 1)) = .ok [.closeBrace] →
    .atLine (n + 1) (.unexpectedToken "\x7d") ∈ problems → atFace.Open lines m n →
    ReportedMalformed lines problems m
  /-- A block is reported as unclosed only if one is not closed before it is left. -/
  unclosed : ∀ n, .atLine n .unclosedProductionBlock ∈ problems →
    ∃ m k, m ≤ k ∧ atFace.opens (lineAt lines m) = true ∧ LeavesAfter lines k ∧
      ∀ j ≤ k, m < j → atFace.ends (lineAt lines j) = true → ReportedMalformed lines problems j
  /-- A row is reported where no block is open. -/
  row_found : ∀ n row closes, Line.said? (lineAt lines (n + 1)) = some (.row row closes) →
    (∀ m, ¬ atFace.Open lines m n) → .atLine (n + 1) .ruleOutsideBlock ∈ problems ∨
      ∃ j ≤ n, atFace.ends (lineAt lines j) = true ∧ ReportedMalformed lines problems j
  /-- A block that is left open is reported. -/
  unclosed_found : ∀ m k, atFace.Open lines m k → LeavesAfter lines k →
    (∃ n, .atLine n .unclosedProductionBlock ∈ problems) ∨ ReportedMalformed lines problems m

/-- **Reports about the block agree with its braces, unless a line with a brace is malformed.** -/
theorem block_reports_at_face (hlines : Text.lines text.toList = lines)
    (hread : read maxRules text = .error problems) : AgreesAtFace lines problems := by
  subst hlines
  have hmono : ∀ {m}, ReportedMalformed (Text.lines text.toList)
      (Outline.ofLines (Text.lines text.toList)).problems m →
      ReportedMalformed (Text.lines text.toList) problems m :=
    fun ⟨cause, hcause, hp⟩ => ⟨cause, hcause, mem_of_mem_ofLines hread hp⟩
  constructor
  case row_outside =>
    intro n m hp hopen
    obtain ⟨hn, houtside⟩ :=
      Outline.not_isInside_of_ruleOutsideBlock (mem_ofLines_of_mem hread hp id)
    exact hmono (Outline.reportedMalformed_of_outside hn houtside hopen)
  case brace_outside =>
    intro n m hbrace hp hopen
    obtain ⟨hn, houtside⟩ :=
      Outline.not_isInside_of_closeBrace hbrace (mem_ofLines_of_mem hread hp id)
    exact hmono (Outline.reportedMalformed_of_outside hn houtside hopen)
  case unclosed =>
    intro n hp
    obtain ⟨-, m, k, hopen, hleaves⟩ :=
      Outline.mem_problems_unclosed_iff.1 (mem_ofLines_of_mem hread hp id)
    refine ⟨m, k, hopen.le, opens_atFace_of_asRead hopen.opens, hleaves, ?_⟩
    intro j hj hmj hends
    exact hmono (Outline.reportedMalformed_of_ends hleaves.le_length hopen hj hmj hends)
  case row_found =>
    intro n row closes hrow hnone
    have hn := Nat.le_of_lt (lt_length_of_row hrow)
    cases hinside : (Outline.after (Text.lines text.toList) n).block.isInside with
    | false =>
      exact .inl (mem_of_mem_ofLines hread (Outline.mem_problems_ruleOutsideBlock hrow hinside))
    | true =>
      -- The reader goes on in a block that by its braces is closed.
      obtain ⟨m, hopen⟩ := (Outline.isInside_after hn).1 hinside
      obtain ⟨j, hj, hmj, hends⟩ := hopen.exists_ends_atFace (hnone m)
      exact .inr ⟨j, hj, hends,
        hmono (Outline.reportedMalformed_of_ends hn hopen hj hmj hends)⟩
  case unclosed_found =>
    intro m k hopen hleaves
    cases hsaid : Line.said? (lineAt (Text.lines text.toList) m) with
    | some line =>
      have hread' := hopen.asRead_of_atFace hsaid
      obtain ⟨n, -, hfirst⟩ := exists_firstOpening (Line.reads_isOpening_of_opens hread'.opens)
      exact .inl ⟨n, mem_of_mem_ofLines hread
        (Outline.mem_problems_unclosed_iff.2 ⟨hfirst, m, k, hread', hleaves⟩)⟩
    | none => exact .inr (hmono (Outline.reportedMalformed_of_opens
        (Nat.le_trans hopen.le hleaves.le_length) hopen.opens hsaid))

/-- A closed block whose opening line carries a malformed row. -/
def spoiltOpeningText : String := "S = S\nP = \x7b S\nS -> a\n\x7d"

/-- Its row is reported to stand outside of it, which the report of its opening line explains. -/
theorem block_reports_at_face_spoilt :
    ∃ problems, read 10 spoiltOpeningText = .error problems ∧
      .atLine 3 .ruleOutsideBlock ∈ problems ∧
      atFace.Open (Text.lines spoiltOpeningText.toList) 2 2 ∧
      ReportedMalformed (Text.lines spoiltOpeningText.toList) problems 2 := by
  obtain ⟨problems, hread⟩ : ∃ problems, read 10 spoiltOpeningText = .error problems := ⟨_, rfl⟩
  have hp : .atLine 3 .ruleOutsideBlock ∈ problems := by
    obtain rfl := Except.error.inj hread
    decide
  have hopen : atFace.Open (Text.lines spoiltOpeningText.toList) 2 2 := by decide
  exact ⟨problems, hread, hp, hopen, (block_reports_at_face rfl hread).row_outside 2 2 hp hopen⟩

/-- A block that is closed after a malformed row. -/
def spoiltClosingText : String := "S = S\nP = \x7b\nS -> a\nS \x7d"

/-- By the braces, lines 3 and 4 of the first text stand in the block, and the block of the second
text is closed before the text ends. -/
theorem block_reports_not_at_face :
    (read 10 spoiltOpeningText = .error [.atLine 2 .missingArrow, .atLine 3 .ruleOutsideBlock,
        .atLine 4 (.unexpectedToken "\x7d")] ∧
      atFace.Open (Text.lines spoiltOpeningText.toList) 2 2 ∧
      atFace.Open (Text.lines spoiltOpeningText.toList) 2 3) ∧
    read 10 spoiltClosingText = .error [.atLine 4 .missingArrow,
        .atLine 2 .unclosedProductionBlock] ∧
      ∀ m k, ¬ (atFace.Open (Text.lines spoiltClosingText.toList) m k ∧
        LeavesAfter (Text.lines spoiltClosingText.toList) k) := by
  have hclosed : ∀ k ≤ 4, ∀ m ≤ k, ¬ (atFace.Open (Text.lines spoiltClosingText.toList) m k ∧
      LeavesAfter (Text.lines spoiltClosingText.toList) k) := by decide
  exact ⟨⟨rfl, by decide, by decide⟩, rfl, fun m k h => hclosed k h.2.le_length m h.1.le h⟩

end Reports

end PhraseStructure.Source
