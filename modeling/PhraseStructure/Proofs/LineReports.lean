import PhraseStructure.Proofs.Arrangement

/-!
# Where problems with lines come from

A text is read line by line, and each line may add problems to those before it. What a line adds
depends on what was read before it only through the block and the declarations: it reports that it
is malformed, or that it repeats a section, or, being a declaration, that it leaves a block which
was not closed (`Outline.Raises`). The end of the text leaves an open block likewise. No problem is
lost, and none has another source.

* `Outline.after`: what has been read after so many lines, with `after_succ` for one more.
* `Outline.block_readLine`: what a line does to the block.
* `Outline.mem_problems_readLine`, `Outline.mem_problems_ofLines`: what one line reports, and what
  all of them do.
* `Line.failsFor_of_permits`, `Line.failsFor_ofChars`: for which causes a line is malformed.
* `mem_of_mem_ofLines`, `mem_ofLines_of_mem`: which problems are those of lines.
-/

namespace PhraseStructure.Source

/-! ## Causes -/

namespace Cause

/-- The line itself is spelled wrong, wherever it stands. -/
def IsSpelling : Cause → Prop
  | invalidSymbol _ => True
  | missingArrow => True
  | missingLeftHandSide => True
  | multiSymbolLeftHandSide _ => True
  | unexpectedToken _ => True
  | _ => False

/-- The sections of the text contradict each other. -/
def IsStructural : Cause → Prop
  | missingStartSymbol => True
  | undeclaredStartSymbol _ => True
  | invalidSymbol _ => True
  | undeclaredNonterminal _ => True
  | undeclaredSymbol _ => True
  | tooManyRules _ _ => True
  | _ => False

/-- The line is spelled wrong, or it stands outside the block and does not belong there. -/
def IsOfLine (inBlock : Bool) (cause : Cause) : Prop :=
  cause.IsSpelling ∨ inBlock = false ∧ (cause = ruleOutsideBlock ∨ cause = unexpectedLine)

end Cause

/-- A reading that can only fail for causes of a kind. -/
def FailsFor {α : Type} (kind : Cause → Prop) (x : Except Cause α) : Prop :=
  ∀ cause, x = .error cause → kind cause

namespace FailsFor

variable {α β : Type} {kind : Cause → Prop}

theorem ok (a : α) : FailsFor kind (.ok a) := by
  intro cause h
  cases h

theorem error {cause : Cause} (h : kind cause) : FailsFor kind (.error cause : Except Cause α) := by
  intro cause' heq
  rwa [← Except.error.inj heq]

theorem bind_of_ok {x : Except Cause α} {f : α → Except Cause β} (hx : FailsFor kind x)
    (hf : ∀ a, x = .ok a → FailsFor kind (f a)) : FailsFor kind (x >>= f) := by
  intro cause h
  cases x with
  | error cause' => exact hx cause (congrArg Except.error (Except.error.inj h))
  | ok a => exact hf a rfl cause h

theorem bind {x : Except Cause α} {f : α → Except Cause β} (hx : FailsFor kind x)
    (hf : ∀ a, FailsFor kind (f a)) : FailsFor kind (x >>= f) :=
  hx.bind_of_ok fun a _ => hf a

theorem mapM {f : α → Except Cause β} {l : List α} (hf : ∀ a ∈ l, FailsFor kind (f a)) :
    FailsFor kind (l.mapM f) := by
  induction l with
  | nil => exact ok []
  | cons a rest ih =>
    rw [List.forall_mem_cons] at hf
    rw [List.mapM_cons]
    exact hf.1.bind fun b => (ih hf.2).bind fun bs => ok (b :: bs)

end FailsFor

/-- The kind includes all that can be wrong with these tokens. -/
structure Permits (kind : Cause → Prop) (tokens : List Token) : Prop where
  symbol : ∀ letters, .word letters ∈ tokens → ∀ c ∈ letters, kind (.invalidSymbol c.toString)
  side : ∀ letters, .word letters ∈ tokens →
    kind (.multiSymbolLeftHandSide (String.ofList letters))
  token : ∀ token ∈ tokens, kind (.unexpectedToken token.render)
  ending : kind (.unexpectedToken "end of line")
  arrow : kind .missingArrow
  left : kind .missingLeftHandSide

theorem mem_of_mem_splitOn {α : Type} [BEq α] {sep x : α} {l part : List α}
    (hpart : part ∈ l.splitOn sep) (hx : x ∈ part) : x ∈ l := by
  induction l generalizing part with
  | nil =>
    rw [List.splitOn_nil, List.mem_singleton] at hpart
    rwa [hpart] at hx
  | cons a rest ih =>
    rw [List.splitOn_cons_eq_if_modifyHead] at hpart
    split at hpart
    · rcases List.mem_cons.1 hpart with rfl | hpart
      · cases hx
      · exact List.mem_cons_of_mem a (ih hpart hx)
    · obtain ⟨first, others, hsplit⟩ :=
        List.exists_cons_of_ne_nil (List.splitOn_ne_nil sep rest)
      rw [hsplit] at hpart ih
      rcases List.mem_cons.1 hpart with rfl | hpart
      · rcases List.mem_cons.1 hx with rfl | hx
        · exact List.mem_cons_self
        · exact List.mem_cons_of_mem a (ih List.mem_cons_self hx)
      · exact List.mem_cons_of_mem a (ih (List.mem_cons_of_mem _ hpart) hx)

theorem mem_of_mem_takeClose {tokens : List Token} {token : Token}
    (h : token ∈ (takeClose tokens).1) : token ∈ tokens := by
  unfold takeClose at h
  split at h
  · exact (List.dropLast_sublist tokens).subset h
  · exact h

section Tokens

variable {kind : Cause → Prop} {tokens : List Token}

theorem Permits.mono {tokens' : List Token} (h : Permits kind tokens)
    (hsub : ∀ token ∈ tokens', token ∈ tokens) : Permits kind tokens' where
  symbol letters hword := h.symbol letters (hsub _ hword)
  side letters hword := h.side letters (hsub _ hword)
  token token htoken := h.token token (hsub token htoken)
  ending := h.ending
  arrow := h.arrow
  left := h.left

theorem failsFor_symbolOfChar {c : Char} (h : kind (.invalidSymbol c.toString)) :
    FailsFor kind (symbolOfChar c) := by
  unfold symbolOfChar
  split
  · exact .ok _
  · exact .error h

theorem failsFor_formOfToken (h : Permits kind tokens) {token : Token} (htoken : token ∈ tokens) :
    FailsFor kind (formOfToken token) := by
  cases token with
  | epsilon => exact .ok []
  | word letters => exact .mapM fun c hc => failsFor_symbolOfChar (h.symbol letters htoken c hc)
  | _ => exact .error (h.token _ htoken)

theorem failsFor_alternativesOfTokens (h : Permits kind tokens) :
    FailsFor kind (alternativesOfTokens tokens) := by
  refine .mapM ?_
  intro part hpart
  have hform : ∀ token ∈ part, FailsFor kind (formOfToken token) := fun token htoken =>
    failsFor_formOfToken h (mem_of_mem_splitOn hpart htoken)
  exact (FailsFor.mapM hform).bind fun pieces => .ok pieces.flatten

theorem failsFor_leftHandSide (h : Permits kind tokens) :
    FailsFor kind (leftHandSide tokens.head?) := by
  cases tokens with
  | nil => exact .error h.left
  | cons t rest =>
    have ht : t ∈ t :: rest := List.mem_cons_self
    cases t with
    | word letters =>
      rcases letters with _ | ⟨c, _ | ⟨d, later⟩⟩
      · exact .error (h.side _ ht)
      · show FailsFor _ (if c.isUpper then .ok c else .error (.invalidSymbol c.toString))
        split
        · exact .ok c
        · exact .error (h.symbol _ ht c List.mem_cons_self)
      · exact .error (h.side _ ht)
    | arrow => exact .error h.left
    | _ => exact .error (h.token _ ht)

theorem Row.failsFor_ofTokens (h : Permits kind tokens) : FailsFor kind (Row.ofTokens tokens) := by
  refine (failsFor_leftHandSide h).bind ?_
  intro lhs
  split
  · next rest hrest =>
    have hpermits : Permits kind rest := h.mono fun token htoken =>
      List.mem_of_mem_drop (hrest ▸ List.mem_cons_of_mem _ htoken)
    exact (failsFor_alternativesOfTokens hpermits).bind fun alternatives =>
      .ok (⟨lhs, alternatives⟩ : Row)
  · exact .error h.arrow

namespace Line

theorem failsFor_ofHeader (sec : Section) (h : Permits kind tokens) :
    FailsFor kind (ofHeader sec tokens) := by
  have hword : ∀ token ∈ tokens, FailsFor kind (wordOfToken token) := by
    intro token htoken
    cases token with
    | word letters => exact .ok letters
    | _ => exact .error (h.token _ htoken)
  exact (FailsFor.mapM hword).bind fun words => .ok (header sec words)

theorem failsFor_ofBlockHeader (h : Permits kind tokens) :
    FailsFor kind (ofBlockHeader tokens) := by
  unfold ofBlockHeader
  split
  · simp only
    split
    · exact .ok _
    · exact (Row.failsFor_ofTokens (h.mono fun token htoken =>
        List.mem_cons_of_mem _ (mem_of_mem_takeClose htoken))).bind fun row => .ok _
  · next other _ _ => exact .error (h.token other List.mem_cons_self)
  · exact .error h.ending

theorem failsFor_ofBody {inBlock : Bool} (h : Permits kind tokens)
    (houtside : inBlock = false → kind .ruleOutsideBlock ∧ kind .unexpectedLine) :
    FailsFor kind (ofBody inBlock tokens) := by
  unfold ofBody
  split
  · next heq =>
    split
    · exact .ok _
    · exact .error (h.token .closeBrace (heq ▸ List.mem_cons_self))
  · split
    · exact (Row.failsFor_ofTokens (h.mono fun token => mem_of_mem_takeClose)).bind fun row => .ok _
    · next hin =>
      rw [Bool.not_eq_true] at hin
      split
      · exact .error (houtside hin).1
      · exact .error (houtside hin).2

theorem failsFor_ofTokens {inBlock : Bool} (h : Permits kind tokens)
    (houtside : inBlock = false → kind .ruleOutsideBlock ∧ kind .unexpectedLine) :
    FailsFor kind (ofTokens inBlock tokens) := by
  have htail : ∀ {first second : Token} {rest : List Token},
      Permits kind (first :: second :: rest) → Permits kind rest := fun h =>
    h.mono fun token htoken => List.mem_cons_of_mem _ (List.mem_cons_of_mem _ htoken)
  unfold ofTokens
  split
  · exact .ok _
  · exact failsFor_ofHeader _ (htail h)
  · exact failsFor_ofHeader _ (htail h)
  · exact failsFor_ofHeader _ (htail h)
  · exact failsFor_ofBlockHeader (htail h)
  · exact failsFor_ofBody h houtside

end Line

theorem Token.failsFor_scanFrom (h : kind (.invalidSymbol "-")) (pending line : List Char) :
    FailsFor kind (Token.scanFrom pending line) := by
  fun_induction Token.scanFrom pending line with
  | case1 => exact .ok _
  | case2 => exact .ok _
  | case3 pending rest ih => exact ih.bind fun tokens => .ok _
  | case4 => exact .error h
  | case5 pending c rest _ _ _ mark _ ih => exact ih.bind fun tokens => .ok _
  | case6 pending c rest _ _ _ _ _ ih => exact ih.bind fun tokens => .ok _
  | case7 pending c rest _ _ _ _ _ ih => exact ih

/-- **Reading a line** fails for causes of a kind that includes what can be wrong with its tokens. -/
theorem Line.failsFor_of_permits {inBlock : Bool} {chars : List Char}
    (hdash : kind (.invalidSymbol "-"))
    (htokens : ∀ tokens, Token.scan chars = .ok tokens → Permits kind tokens)
    (houtside : inBlock = false → kind .ruleOutsideBlock ∧ kind .unexpectedLine) :
    FailsFor kind (ofChars inBlock chars) :=
  (Token.failsFor_scanFrom hdash [] chars).bind_of_ok fun tokens hscan =>
    failsFor_ofTokens (htokens tokens hscan) houtside

end Tokens

namespace Line

/-- **Why a line is malformed.** Only what stands outside the block can be refused for its place. -/
theorem failsFor_ofChars (inBlock : Bool) (chars : List Char) :
    FailsFor (Cause.IsOfLine inBlock) (ofChars inBlock chars) := by
  refine failsFor_of_permits (.inl trivial) (fun tokens _ => ?_) fun hin =>
    ⟨.inr ⟨hin, .inl rfl⟩, .inr ⟨hin, .inr rfl⟩⟩
  exact ⟨fun _ _ _ _ => .inl trivial, fun _ _ => .inl trivial, fun _ _ => .inl trivial,
    .inl trivial, .inl trivial, .inl trivial⟩

/-- What a line says, if it is well formed. Rows and closing braces are meant to be in the block. -/
def said? (chars : List Char) : Option Line := (ofChars true chars).toOption

variable {inBlock : Bool} {chars : List Char} {line : Line}

theorem said?_eq_some_iff : said? chars = some line ↔ line.SpelledBy chars := by
  have hok : ofChars true chars = .ok line ↔ line.SpelledBy chars := by
    rw [ofChars_eq_ok_iff]
    exact and_iff_left fun _ => rfl
  rw [← hok, said?]
  cases ofChars true chars <;> simp [Except.toOption]

theorem said?_eq_none_iff : said? chars = none ↔ ∃ cause, ofChars true chars = .error cause := by
  unfold said?
  cases ofChars true chars <;> simp [Except.toOption]

/-- A line is read as what it says, unless it belongs in the block and stands outside. -/
theorem ofChars_eq_ok_iff_said? : ofChars inBlock chars = .ok line ↔
    said? chars = some line ∧ (line.belongsInBlock = true → inBlock = true) := by
  rw [said?_eq_some_iff, ofChars_eq_ok_iff]

/-- A well-formed line is only refused where the block is not open. -/
theorem outside_of_refused {cause : Cause} (hsaid : said? chars = some line)
    (h : ofChars inBlock chars = .error cause) : line.belongsInBlock = true ∧ inBlock = false := by
  have hplace : ¬ (line.belongsInBlock = true → inBlock = true) := by
    intro hin
    rw [ofChars_eq_ok_iff_said?.2 ⟨hsaid, hin⟩] at h
    cases h
  simpa only [Classical.not_imp, Bool.not_eq_true] using hplace

end Line

/-! ## One line -/

/-- The characters of a line, by its number. There is nothing on a line which the text lacks. -/
def lineAt (lines : List (List Char)) : Nat → List Char
  | 0 => []
  | n + 1 => lines[n]?.getD []

namespace Block

/-- The first line that opened the block, if there is one. -/
def openedAt? : Block → Option Nat
  | unopened => none
  | inside openedAt => some openedAt
  | outside openedAt => some openedAt

/-- The block after a well-formed line, also one that does not belong where it stands. -/
def step (b : Block) (number : Nat) : Line → Block
  | .blank => b
  | .header _ _ => b.close
  | .openBlock _ closes => resume closes (b.openedAt?.getD number)
  | .row _ closes => if closes then b.close else b
  | .closeBlock => b.close

theorem close_of_not_inside {b : Block} (h : b.isInside = false) : b.close = b := by
  cases b with
  | inside openedAt => cases h
  | _ => rfl

/-- A row or a closing brace outside the block does nothing to it. -/
theorem step_of_not_inside {b : Block} {line : Line} {number : Nat} (h : b.isInside = false)
    (hline : line.belongsInBlock = true) : b.step number line = b := by
  cases line with
  | row row closes => cases closes <;> simp [step, close_of_not_inside h]
  | closeBlock => exact close_of_not_inside h
  | _ => cases hline

end Block

namespace Outline

variable {o : Outline} {chars : List Char} {number : Nat} {p : Problem}

theorem block_leaveBlock (o : Outline) : o.leaveBlock.block = o.block.close := by
  unfold leaveBlock
  split
  · next hblock => rw [hblock]; rfl
  · next hblock =>
    cases hb : o.block with
    | inside openedAt => exact absurd hb (hblock openedAt)
    | _ => rfl

theorem block_declare (o : Outline) (sec : Section) (d : Declaration) :
    (o.declare sec d).block = o.block := by
  unfold declare
  split
  · rfl
  · cases sec <;> rfl

theorem block_add (o : Outline) (number : Nat) (line : Line) :
    (o.add number line).block = o.block.step number line := by
  cases line with
  | header sec words => exact (block_declare _ _ _).trans (block_leaveBlock o)
  | openBlock row closes =>
    show (o.openBlock number row closes).block = _
    unfold Outline.openBlock
    split
    all_goals
      next hblock =>
        rw [hblock]
        rfl
  | _ => rfl

/-- **What a line does to the block.** A malformed line does nothing to it. -/
theorem block_readLine (o : Outline) (chars : List Char) (number : Nat) :
    (o.readLine (chars, number)).block =
      (Line.said? chars).elim o.block (o.block.step number) := by
  unfold readLine
  cases hline : Line.ofChars o.block.isInside chars with
  | ok line =>
    rw [(Line.ofChars_eq_ok_iff_said?.1 hline).1]
    exact block_add o number line
  | error cause =>
    cases hsaid : Line.said? chars with
    | none => rfl
    | some line =>
      obtain ⟨hbelongs, hinside⟩ := Line.outside_of_refused hsaid hline
      exact (Block.step_of_not_inside hinside hbelongs).symm

/-- What a line can report, given what was read before it and how the line was read. -/
inductive Raises (o : Outline) (number : Nat) : Except Cause Line → Problem → Prop where
  /-- The line is malformed. -/
  | malformed {cause : Cause} : Raises o number (.error cause) (.atLine number cause)
  /-- It declares a section that has been declared. -/
  | redeclared {sec : Section} {words : List (List Char)} :
      (o.declaration? sec).isSome = true →
      Raises o number (.ok (.header sec words)) (.atLine number (.duplicateSection sec.letter))
  /-- It opens the block, which has been opened before. -/
  | reopened {row : Option Row} {closes : Bool} :
      o.block.openedAt?.isSome = true →
      Raises o number (.ok (.openBlock row closes)) (.atLine number (.duplicateSection blockLetter))
  /-- It is a declaration, and the block is still open. -/
  | left {sec : Section} {words : List (List Char)} {openedAt : Nat} :
      o.block = .inside openedAt →
      Raises o number (.ok (.header sec words)) (.atLine openedAt .unclosedProductionBlock)

theorem mem_problems_leaveBlock : p ∈ o.leaveBlock.problems ↔ p ∈ o.problems ∨
    ∃ openedAt, o.block = .inside openedAt ∧ p = .atLine openedAt .unclosedProductionBlock := by
  unfold leaveBlock
  split
  · next openedAt hblock => simp [report, hblock, or_comm]
  · next hblock =>
    refine (or_iff_left ?_).symm
    rintro ⟨openedAt, hinside, -⟩
    exact hblock openedAt hinside

theorem declaration?_leaveBlock (o : Outline) (sec : Section) :
    o.leaveBlock.declaration? sec = o.declaration? sec := by
  unfold leaveBlock
  split <;> cases sec <;> rfl

theorem mem_problems_declare {sec : Section} {d : Declaration} :
    p ∈ (o.declare sec d).problems ↔ p ∈ o.problems ∨
      (o.declaration? sec).isSome = true ∧ p = .atLine d.line (.duplicateSection sec.letter) := by
  unfold declare
  split
  · next hd => simp [report, hd, or_comm]
  · next hd => cases sec <;> simp [setDeclaration, hd]

theorem mem_problems_openBlock {row : Option Row} {closes : Bool} :
    p ∈ (o.openBlock number row closes).problems ↔ p ∈ o.problems ∨
      o.block.openedAt?.isSome = true ∧ p = .atLine number (.duplicateSection blockLetter) := by
  unfold Outline.openBlock
  split
  · next hblock => simp [hblock, Block.openedAt?]
  · next hblock => simp [report, hblock, Block.openedAt?, or_comm]
  · next hblock => simp [report, hblock, Block.openedAt?, or_comm]

theorem mem_problems_add {line : Line} :
    p ∈ (o.add number line).problems ↔ p ∈ o.problems ∨ o.Raises number (.ok line) p := by
  cases line with
  | header sec words =>
    rw [Outline.add, mem_problems_declare, mem_problems_leaveBlock, declaration?_leaveBlock]
    constructor
    · rintro ((h | ⟨openedAt, hblock, rfl⟩) | ⟨hd, rfl⟩)
      · exact .inl h
      · exact .inr (.left hblock)
      · exact .inr (.redeclared hd)
    · rintro (h | h)
      · exact .inl (.inl h)
      · cases h with
        | redeclared hd => exact .inr ⟨hd, rfl⟩
        | left hblock => exact .inl (.inr ⟨_, hblock, rfl⟩)
  | openBlock row closes =>
    rw [Outline.add, mem_problems_openBlock]
    constructor
    · rintro (h | ⟨hopened, rfl⟩)
      · exact .inl h
      · exact .inr (.reopened hopened)
    · rintro (h | h)
      · exact .inl h
      · cases h with
        | reopened hopened => exact .inr ⟨hopened, rfl⟩
  | blank => exact (or_iff_left fun h => by cases h).symm
  | row row closes => exact (or_iff_left fun h => by cases h).symm
  | closeBlock => exact (or_iff_left fun h => by cases h).symm

/-- **What a line reports** is added to the problems before it. -/
theorem mem_problems_readLine :
    p ∈ (o.readLine (chars, number)).problems ↔
      p ∈ o.problems ∨ o.Raises number (Line.ofChars o.block.isInside chars) p := by
  unfold readLine
  cases Line.ofChars o.block.isInside chars with
  | ok line => exact mem_problems_add
  | error cause =>
    simp only [report, List.mem_cons]
    constructor
    · rintro (rfl | h)
      · exact .inr .malformed
      · exact .inl h
    · rintro (h | h)
      · exact .inr h
      · cases h with
        | malformed => exact .inl rfl

/-! ## All lines -/

/-- What has been read after the first `n` lines. -/
def after (lines : List (List Char)) (n : Nat) : Outline :=
  ((lines.take n).zipIdx 1).foldl readLine {}

variable {lines : List (List Char)} {n : Nat}

theorem after_zero (lines : List (List Char)) : after lines 0 = {} := rfl

theorem after_succ (h : n < lines.length) :
    after lines (n + 1) = (after lines n).readLine (lineAt lines (n + 1), n + 1) := by
  have hlength : 1 + (lines.take n).length = n + 1 := by
    rw [List.length_take]
    omega
  rw [after, List.take_add_one, List.zipIdx_append, List.foldl_append, hlength, lineAt,
    List.getElem?_eq_getElem h]
  rfl

/-- How the line after the first `n` ones is read. -/
def readAt (lines : List (List Char)) (n : Nat) : Except Cause Line :=
  Line.ofChars (after lines n).block.isInside (lineAt lines (n + 1))

theorem ofLines_eq (lines : List (List Char)) :
    ofLines lines = (after lines lines.length).leaveBlock := by
  rw [ofLines, after, List.take_length]

theorem mem_problems_after (hn : n ≤ lines.length) :
    p ∈ (after lines n).problems ↔
      ∃ k < n, (after lines k).Raises (k + 1) (readAt lines k) p := by
  induction n with
  | zero => simp [after_zero]
  | succ n ih =>
    rw [after_succ hn, mem_problems_readLine, ih (Nat.le_of_succ_le hn), ← readAt]
    constructor
    · rintro (⟨k, hk, hraises⟩ | hraises)
      · exact ⟨k, Nat.lt_succ_of_lt hk, hraises⟩
      · exact ⟨n, Nat.lt_succ_self n, hraises⟩
    · rintro ⟨k, hk, hraises⟩
      rcases Nat.lt_succ_iff_lt_or_eq.1 hk with hk | rfl
      · exact .inl ⟨k, hk, hraises⟩
      · exact .inr hraises

/-- **Every problem with lines was raised by a line,** or by the end of the text. -/
theorem mem_problems_ofLines :
    p ∈ (ofLines lines).problems ↔
      (∃ k < lines.length, (after lines k).Raises (k + 1) (readAt lines k) p) ∨
        ∃ openedAt, (after lines lines.length).block = .inside openedAt ∧
          p = .atLine openedAt .unclosedProductionBlock := by
  rw [ofLines_eq, mem_problems_leaveBlock, mem_problems_after (Nat.le_refl _)]

/-! ## What is reported -/

theorem isStructural_of_startSymbol {d : Option Declaration} {problem : Problem}
    (h : startSymbol d = .error problem) : problem.cause.IsStructural := by
  unfold startSymbol at h
  split at h
  · rw [← Except.error.inj h]
    trivial
  · rw [← Except.error.inj h]
    trivial
  · split at h
    · cases h
    · rw [← Except.error.inj h]
      trivial
  · rw [← Except.error.inj h]
    trivial

theorem isStructural_of_badWords (h : p ∈ o.badWords) : p.cause.IsStructural := by
  have hwords : ∀ (d : Option Declaration) (wanted : Symbol → Bool),
      p ∈ (d.map fun d => d.badWords wanted).getD [] → p.cause.IsStructural := by
    intro d wanted hp
    cases d with
    | none => cases hp
    | some d =>
      obtain ⟨word, -, rfl⟩ := List.mem_map.1 hp
      trivial
  rcases List.mem_append.1 h with h | h
  · exact hwords _ _ h
  · exact hwords _ _ h

theorem isStructural_of_undeclaredIn {nonterminals terminals : Option Alphabet}
    {entry : Production × Nat} (h : p ∈ undeclaredIn nonterminals terminals entry) :
    p.cause.IsStructural := by
  unfold undeclaredIn at h
  rcases List.mem_append.1 h with h | h
  · split at h
    · rw [List.mem_singleton.1 h]
      trivial
    · cases h
  · obtain ⟨s, -, hs⟩ := List.mem_filterMap.1 h
    rw [← Option.some.inj (Option.ite_none_right_eq_some.1 hs).2]
    trivial

theorem isStructural_of_problemsWith {maxRules startLine : Nat} {start : Char}
    (h : p ∈ o.problemsWith maxRules start startLine) : p.cause.IsStructural := by
  unfold problemsWith at h
  simp only [List.mem_append] at h
  rcases h with ((h | h) | h) | h
  · exact isStructural_of_badWords h
  · split at h
    · rw [List.mem_singleton.1 h]
      trivial
    · cases h
  · obtain ⟨entry, -, h⟩ := List.mem_flatMap.1 h
    exact isStructural_of_undeclaredIn h
  · split at h
    · rw [List.mem_singleton.1 h]
      trivial
    · cases h

/-- Comparing the sections only finds structural problems. -/
theorem isStructural_of_check {maxRules : Nat} {problems : List Problem}
    (h : o.check maxRules = .error problems) (hp : p ∈ problems) : p.cause.IsStructural := by
  unfold check at h
  split at h
  · -- The start symbol is unusable, and only the words of the declarations are looked at besides.
    next problem hstart =>
    obtain rfl := Except.error.inj h
    rcases List.mem_append.1 hp with hp | hp
    · exact isStructural_of_badWords hp
    · rw [List.mem_singleton.1 hp]
      exact isStructural_of_startSymbol hstart
  · split at h
    · cases h
    · next problems hproblems =>
      obtain rfl := Except.error.inj h
      exact isStructural_of_problemsWith hp

end Outline

section Reported

variable {maxRules : Nat} {text : String} {problems : List Problem} {p : Problem}

/-- **Problems of lines are all reported.** -/
theorem mem_of_mem_ofLines (hread : read maxRules text = .error problems)
    (h : p ∈ (Outline.ofLines (Text.lines text.toList)).problems) : p ∈ problems := by
  unfold read Outline.toGrammar Outline.ofChars at hread
  split at hread
  · next hnone =>
    rw [hnone] at h
    cases h
  · obtain rfl := Except.error.inj hread
    exact List.mem_reverse.2 h

/-- What is reported is a problem of lines, unless comparing the sections can find it. -/
theorem mem_ofLines_of_mem (hread : read maxRules text = .error problems) (h : p ∈ problems)
    (hcause : ¬ p.cause.IsStructural) :
    p ∈ (Outline.ofLines (Text.lines text.toList)).problems := by
  unfold read Outline.toGrammar Outline.ofChars at hread
  split at hread
  · exact absurd (Outline.isStructural_of_check hread h) hcause
  · obtain rfl := Except.error.inj hread
    exact List.mem_reverse.1 h

end Reported

end PhraseStructure.Source
