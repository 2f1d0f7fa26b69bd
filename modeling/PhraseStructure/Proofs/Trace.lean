import PhraseStructure.Proofs.Exactness
import PhraseStructure.Proofs.RoundTrip
import PhraseStructure.Verdict

/-!
# Reading a trace

A trace is text, and its lines can be read back. The symbols of a grammar that was read are letters
and digits, so blanks stand only around the arrow, asterisks only around the rewritten symbol, and
line feeds only between the lines. So each line can be cut at its first blank (`TraceLine.ofChars`),
and its two halves tell the move: the forms are the symbols in them, and the place is where the
first asterisk stands (`TraceLine.move`).

* `Form.marked_append`: what a marked form looks like.
* `TraceLine.move_ofMove`: a line tells its move.
* `Derivation.readAll_trace`: the lines of a trace are those of its moves.
* `trace_read_back`: what the lines of a trace say about a derivation, and that derivations with
  the same trace have the same forms and places.
-/

namespace PhraseStructure

/-- A line of a trace, cut at the arrow. -/
structure TraceLine where
  left : List Char
  right : List Char
deriving DecidableEq, Repr

namespace TraceLine

/-- Cuts a line at its first blank, which stands before the arrow. -/
def ofChars (line : List Char) : TraceLine :=
  ⟨line.takeWhile (· != ' '), (line.dropWhile (· != ' ')).drop 3⟩

/-- The line as it is shown. -/
def chars (line : TraceLine) : List Char := line.left ++ " → ".toList ++ line.right

/-- The left half without its asterisks. -/
def unmarked (line : TraceLine) : List Char := line.left.filter (· != '*')

/-- What the line tells: the form before the step, the place of the first asterisk, and the form
after the step. -/
def move (line : TraceLine) : Form × Nat × Form :=
  (.ofChars line.left, line.left.idxOf '*', .ofChars line.right)

/-- The lines of a text, cut at the arrow. -/
def readAll (text : String) : List TraceLine := (Text.lines text.toList).map ofChars

/-- The line of a step and the form that it rewrites. -/
def ofMove (m : Form × Step) : TraceLine := ⟨m.1.marked m.2.position, m.2.form.shown⟩

end TraceLine

/-! ## Characters -/

namespace Form

/-- Symbols of one place are not marked at another. -/
theorem flatMap_zipIdx_eq_chars {form : Form} {k position : Nat}
    (h : position < k ∨ k + form.length ≤ position) :
    ((form.zipIdx k).flatMap fun (s, index) =>
      if index = position then ['*', s.char, '*'] else [s.char]) = form.chars := by
  induction form generalizing k with
  | nil => rfl
  | cons s rest ih =>
    rw [List.length_cons] at h
    have hne : k ≠ position := by omega
    rw [List.zipIdx_cons, List.flatMap_cons, ih (by omega)]
    simp only [hne, if_false]
    rfl

/-- **A marked form** has one symbol between asterisks. -/
theorem marked_append (left right : Form) (s : Symbol) :
    marked (left ++ s :: right) left.length = left.chars ++ ['*', s.char, '*'] ++ right.chars := by
  rw [marked, List.zipIdx_append, List.zipIdx_cons, List.flatMap_append, List.flatMap_cons,
    flatMap_zipIdx_eq_chars (.inr (by omega)), flatMap_zipIdx_eq_chars (.inl (by omega)),
    List.append_assoc]
  simp only [Nat.zero_add, if_true]

/-- A character that is no symbol is none of a form's. -/
theorem notMem_chars {form : Form} (h : ∀ s ∈ form, s.Proper) {c : Char}
    (hc : Symbol.ofChar? c = none) : c ∉ form.chars := by
  intro hmem
  obtain ⟨s, hs, rfl⟩ := List.mem_map.1 hmem
  rw [h s hs] at hc
  cases hc

theorem notMem_shown {form : Form} (h : ∀ s ∈ form, s.Proper) {c : Char}
    (hc : Symbol.ofChar? c = none) (hmark : c ≠ emptyMark) : c ∉ form.shown := by
  unfold shown
  split
  · exact fun hmem => hmark (List.mem_singleton.1 hmem)
  · exact notMem_chars h hc

theorem ofChars_append (a b : List Char) : ofChars (a ++ b) = ofChars a ++ ofChars b :=
  List.filterMap_append

theorem ofChars_shown {form : Form} (h : ∀ s ∈ form, s.Proper) : ofChars form.shown = form := by
  cases form with
  | nil => rfl
  | cons s rest => exact Source.ofChars_chars h

end Form

/-- The characters of a form as they are shown: the empty mark, if there are none. -/
def shownChars (cs : List Char) : List Char := if cs.isEmpty then [Form.emptyMark] else cs

theorem Form.shown_eq (form : Form) : form.shown = shownChars form.chars := by
  simp [Form.shown, shownChars, Form.chars]

/-! ## Derivations -/

namespace Grammar

variable {g : Grammar}

/-- What holds of the first form and is kept by every step holds of all forms on the way. -/
theorem keeps_of_follows {P : Form → Prop}
    (hstep : ∀ before after, g.Rewrites before after → P before → P after) {form : Form}
    {steps : List Step} (hform : P form)
    (h : ∀ m ∈ (form :: steps.map Step.form).zip steps, m.2.follows g m.1 = true) :
    ∀ m ∈ (form :: steps.map Step.form).zip steps, P m.1 ∧ P m.2.form := by
  induction steps generalizing form with
  | nil => simp
  | cons step rest ih =>
    simp only [List.map_cons, List.zip_cons_cons, List.mem_cons, forall_eq_or_imp] at h ⊢
    have hnext : P step.form := hstep _ _ (rewrites_of_follows h.1) hform
    exact ⟨⟨hform, hnext⟩, ih hnext h.2⟩

/-- A move of a derivation: the step applies a production, and all symbols are those of the
grammar. -/
structure IsMove (g : Grammar) (m : Form × Step) : Prop where
  follows : m.2.follows g m.1 = true
  proper : ∀ s ∈ m.1, s.Proper
  proper_form : ∀ s ∈ m.2.form, s.Proper

end Grammar

namespace Derivation

variable {g : Grammar} {d : Derivation}

theorem isMove_of_validIn (hg : g.WellFormed) (hd : d.validIn g = true) :
    ∀ m ∈ d.moves, g.IsMove m := by
  simp only [validIn, Bool.and_eq_true, beq_iff_eq, List.all_eq_true] at hd
  obtain ⟨⟨hstart, hfollows⟩, -⟩ := hd
  have hdeclared : ∀ s ∈ d.startForm, g.Declares s := by
    intro s hs
    rw [List.mem_singleton.1 hs, hstart]
    exact hg.start_mem
  have hkept := Grammar.keeps_of_follows (P := fun form => ∀ s ∈ form, g.Declares s)
    (fun before after h => hg.declares_of_rewrites h) hdeclared hfollows
  intro m hm
  obtain ⟨hbefore, hafter⟩ := hkept m hm
  exact ⟨hfollows m hm, fun s hs => hg.proper_of_declares (hbefore s hs),
    fun s hs => hg.proper_of_declares (hafter s hs)⟩

theorem steps_ne_nil_of_validIn (hd : d.validIn g = true) : d.steps ≠ [] := by
  intro hnil
  simp [validIn, endForm, hnil, startForm] at hd

theorem length_moves (d : Derivation) : d.moves.length = d.length := by
  simp [moves, length]

theorem map_snd_moves (d : Derivation) : d.moves.map Prod.snd = d.steps :=
  List.map_snd_zip (by simp)

end Derivation

/-! ## One line -/

namespace TraceLine

variable {g : Grammar} {m : Form × Step}

theorem ofChars_chars {line : TraceLine} (h : ' ' ∉ line.left) : ofChars line.chars = line := by
  have hblank : ∀ c ∈ line.left, (c != ' ') = true := by
    intro c hc
    rw [bne_iff_ne]
    rintro rfl
    exact h hc
  have hchars : line.chars = line.left ++ (' ' :: '→' :: ' ' :: line.right) := by
    simp [chars]
  rw [ofChars, hchars, List.takeWhile_append_of_pos hblank, List.dropWhile_append_of_pos hblank]
  simp

/-- **What the line of a move looks like.** -/
theorem exists_left_ofMove (hm : g.IsMove m) :
    ∃ (p : Production) (left right : Form), g.productions[m.2.production]? = some p ∧
      (∀ s ∈ left, s.Proper) ∧ (∀ s ∈ right, s.Proper) ∧
      m.1 = left ++ .nonterminal p.lhs :: right ∧ m.2.position = left.length ∧
      m.2.form = left ++ p.rhs ++ right ∧
      (ofMove m).left = left.chars ++ ['*', p.lhs, '*'] ++ right.chars := by
  obtain ⟨p, left, right, hget, hbefore, hposition, hafter⟩ := Grammar.follows_iff.1 hm.follows
  have hproper := hm.proper
  rw [hbefore, List.forall_mem_append, List.forall_mem_cons] at hproper
  refine ⟨p, left, right, hget, hproper.1, hproper.2.2, hbefore, hposition, hafter, ?_⟩
  rw [ofMove, hbefore, hposition, Form.marked_append, Symbol.char_nonterminal]

theorem notMem_left_ofMove (hm : g.IsMove m) {c : Char} (hc : Symbol.ofChar? c = none)
    (hstar : c ≠ '*') : c ∉ (ofMove m).left := by
  obtain ⟨p, left, right, -, -, -, hbefore, -, -, hleft⟩ := exists_left_ofMove hm
  have hnone := Form.notMem_chars hm.proper hc
  rw [hbefore] at hnone
  rw [hleft]
  simp only [Form.chars, List.map_append, List.map_cons, Symbol.char_nonterminal, List.mem_append,
    List.mem_cons, List.not_mem_nil, or_false, not_or] at hnone ⊢
  exact ⟨⟨hnone.1, hstar, hnone.2.1, hstar⟩, hnone.2.2⟩

/-- Without its asterisks the left half is the form before the step. -/
theorem unmarked_ofMove (hm : g.IsMove m) : (ofMove m).unmarked = m.1.chars := by
  obtain ⟨p, left, right, -, -, -, hbefore, -, -, hleft⟩ := exists_left_ofMove hm
  have hstar := Form.notMem_chars hm.proper (c := '*') rfl
  have hchars : m.1.chars = left.chars ++ [p.lhs] ++ right.chars := by
    simp [hbefore, Form.chars]
  rw [hchars] at hstar
  have hkept : (left.chars ++ [p.lhs] ++ right.chars).filter (· != '*') =
      left.chars ++ [p.lhs] ++ right.chars := by
    refine List.filter_eq_self.2 fun c hc => ?_
    rw [bne_iff_ne]
    rintro rfl
    exact hstar hc
  rw [unmarked, hleft, hchars, ← hkept]
  simp [List.filter_append, List.filter_cons]

/-- **The line of a move tells the move.** -/
theorem move_ofMove (hm : g.IsMove m) : (ofMove m).move = (m.1, m.2.position, m.2.form) := by
  obtain ⟨p, left, right, -, hproper, hproper', hbefore, hposition, -, hleft⟩ :=
    exists_left_ofMove hm
  have hsymbol : Symbol.ofChar? p.lhs = some (.nonterminal p.lhs) :=
    hm.proper (.nonterminal p.lhs) (by simp [hbefore])
  have hmarked : Form.ofChars ['*', p.lhs, '*'] = [.nonterminal p.lhs] := by
    simp [Form.ofChars, hsymbol, show Symbol.ofChar? '*' = none from rfl]
  have hform : Form.ofChars (ofMove m).left = m.1 := by
    rw [hleft, Form.ofChars_append, Form.ofChars_append, Source.ofChars_chars hproper, hmarked,
      Source.ofChars_chars hproper', hbefore, List.append_assoc, List.singleton_append]
  have hplace : (ofMove m).left.idxOf '*' = m.2.position := by
    rw [hleft, List.append_assoc, List.idxOf_append_of_notMem (Form.notMem_chars hproper rfl),
      hposition]
    simp [Form.chars]
  rw [move, hform, hplace, ofMove, Form.ofChars_shown hm.proper_form]

theorem isPlain_chars_ofMove (hm : g.IsMove m) :
    (ofMove m).chars ≠ [] ∧ ∀ c ∈ (ofMove m).chars, Text.isPlain c = true := by
  refine ⟨by simp [chars], ?_⟩
  have hnone : ∀ c, Symbol.ofChar? c = none → c ≠ '*' → c ≠ Form.emptyMark →
      c ∉ " → ".toList → c ∉ (ofMove m).chars := by
    intro c hc hstar hmark harrow
    simp only [chars, List.mem_append, not_or]
    exact ⟨⟨notMem_left_ofMove hm hc hstar, harrow⟩, Form.notMem_shown hm.proper_form hc hmark⟩
  intro c hc
  rw [Text.isPlain_iff]
  constructor
  · rintro rfl
    exact hnone '\n' rfl (by decide) (by decide) (by decide) hc
  · rintro rfl
    exact hnone '\r' rfl (by decide) (by decide) (by decide) hc

end TraceLine

/-! ## All lines -/

namespace Derivation

variable {g : Grammar} {d : Derivation}

theorem map_toList_traceLines (d : Derivation) :
    d.traceLines.map String.toList = (d.moves.map TraceLine.ofMove).map TraceLine.chars := by
  simp [traceLines, TraceLine.ofMove, TraceLine.chars, Form.renderMarked, Form.render]

/-- The lines of a trace are those of its moves. -/
theorem lines_trace (hmoves : ∀ m ∈ d.moves, g.IsMove m) :
    Text.lines d.trace.toList = (d.moves.map TraceLine.ofMove).map TraceLine.chars := by
  have hlist : d.trace.toList = ['\n'].intercalate (d.traceLines.map String.toList) := by
    rw [trace, String.toList_intercalate]
    rfl
  rw [hlist, map_toList_traceLines]
  refine Text.lines_intercalate ?_
  intro line hline
  rw [List.map_map] at hline
  obtain ⟨m, hm, rfl⟩ := List.mem_map.1 hline
  exact TraceLine.isPlain_chars_ofMove (hmoves m hm)

/-- **Cut at their arrows, the lines of a trace are those of its moves.** -/
theorem readAll_trace (hmoves : ∀ m ∈ d.moves, g.IsMove m) :
    TraceLine.readAll d.trace = d.moves.map TraceLine.ofMove := by
  rw [TraceLine.readAll, lines_trace hmoves, List.map_map]
  refine List.map_congr_left ?_ |>.trans (List.map_id _)
  intro line hline
  obtain ⟨m, hm, rfl⟩ := List.mem_map.1 hline
  exact TraceLine.ofChars_chars (TraceLine.notMem_left_ofMove (hmoves m hm) rfl (by decide))

/-- Every step rewrites the form that the step before it leads to. -/
theorem isChain_moves (d : Derivation) : d.moves.IsChain fun m next => next.1 = m.2.form := by
  have hzip : ∀ (form : Form) (steps : List Step),
      ((form :: steps.map Step.form).zip steps).IsChain fun m next => next.1 = m.2.form := by
    intro form steps
    induction steps generalizing form with
    | nil => exact .nil
    | cons step rest ih =>
      cases rest with
      | nil => exact .singleton _
      | cons next rest => exact .cons_cons rfl (ih step.form)
  exact hzip d.startForm d.steps

end Derivation

/-- The line of a step marks the nonterminal that its production rewrites, at its place and nowhere
else, and shows what comes of it. -/
def TraceLine.Shows (g : Grammar) (step : Step) (line : TraceLine) : Prop :=
  ∃ (p : Production) (before after : List Char), g.productions[step.production]? = some p ∧
    p.lhs ∈ g.nonterminals ∧ step.position = before.length ∧ '*' ∉ before ∧ '*' ∉ after ∧
    line.left = before ++ ['*', p.lhs, '*'] ++ after ∧
    line.right = shownChars (before ++ p.rhs.chars ++ after)

/-- What the lines of a trace say about a derivation. -/
structure Derivation.ToldBy (g : Grammar) (d : Derivation) (lines : List TraceLine) : Prop where
  /-- There is a line for each step. -/
  length_eq : lines.length = d.length
  /-- The first line starts from the start symbol. -/
  first : lines.head?.map TraceLine.unmarked = some [g.start]
  /-- Each line goes on from the one before it. -/
  chained : lines.IsChain fun line next => next.unmarked = line.right
  /-- The last one ends at the string. -/
  last : lines.getLast?.map TraceLine.right = some (shownChars d.word.toList)
  /-- Each line shows its step. -/
  rewritten : List.Forall₂ (TraceLine.Shows g) d.steps lines
  /-- The forms and places can be read off the lines. -/
  moves : lines.map TraceLine.move = d.moves.map fun m => (m.1, m.2.position, m.2.form)

namespace TraceLine

variable {g : Grammar} {m : Form × Step}

theorem shows_ofMove (hg : g.WellFormed) (hm : g.IsMove m) : Shows g m.2 (ofMove m) := by
  obtain ⟨p, left, right, hget, hproper, hproper', -, hposition, hafter, hleft⟩ :=
    exists_left_ofMove hm
  refine ⟨p, left.chars, right.chars, hget, hg.lhs_mem p (List.mem_of_getElem? hget), ?_,
    Form.notMem_chars hproper rfl, Form.notMem_chars hproper' rfl, hleft, ?_⟩
  · rw [hposition, Form.chars, List.length_map]
  · rw [ofMove, hafter, Form.shown_eq]
    simp [Form.chars]

/-- A form that is rewritten further is not empty, so it is shown by its own characters. -/
theorem unmarked_eq_right {next : Form × Step} (hnext : g.IsMove next)
    (h : next.1 = m.2.form) : (ofMove next).unmarked = (ofMove m).right := by
  obtain ⟨p, left, right, -, -, -, hbefore, -⟩ := exists_left_ofMove hnext
  rw [unmarked_ofMove hnext, ofMove, ← h, Form.shown_eq, shownChars, if_neg]
  simp [hbefore, Form.chars]

end TraceLine

namespace Derivation

variable {g : Grammar} {d : Derivation}

theorem toldBy_moves (hg : g.WellFormed) (hd : d.validIn g = true) :
    d.ToldBy g (d.moves.map TraceLine.ofMove) := by
  have hmoves := isMove_of_validIn hg hd
  have hne := steps_ne_nil_of_validIn hd
  constructor
  case length_eq => rw [List.length_map, length_moves]
  case first =>
    obtain ⟨step, rest, hsteps⟩ := List.exists_cons_of_ne_nil hne
    have hmem : (d.startForm, step) ∈ d.moves := by simp [moves, hsteps]
    have hhead : d.moves.head? = some (d.startForm, step) := by simp [moves, hsteps]
    have hstart : d.start = g.start := by
      simp only [validIn, Bool.and_eq_true, beq_iff_eq] at hd
      exact hd.1.1
    rw [List.head?_map, hhead, Option.map_some, Option.map_some,
      TraceLine.unmarked_ofMove (hmoves _ hmem), ← hstart]
    rfl
  case chained =>
    rw [List.isChain_map]
    exact d.isChain_moves.imp_of_mem_imp fun m next _ hnext h =>
      TraceLine.unmarked_eq_right (hmoves next hnext) h
  case last =>
    obtain ⟨step, hstep⟩ : ∃ step, d.steps.getLast? = some step :=
      ⟨_, List.getLast?_eq_some_getLast hne⟩
    have hform : d.endForm = step.form := by simp [endForm, hstep]
    have hlast : (d.moves.map TraceLine.ofMove).getLast?.map TraceLine.right =
        d.steps.getLast?.map fun step => step.form.shown := by
      rw [← d.map_snd_moves, List.getLast?_map, List.getLast?_map, Option.map_map, Option.map_map]
      rfl
    rw [hlast, hstep, Option.map_some, word, String.toList_ofList, hform, Form.shown_eq]
  case rewritten =>
    rw [← d.map_snd_moves, List.forall₂_map_left_iff, List.forall₂_map_right_iff, List.forall₂_same]
    exact fun m hm => TraceLine.shows_ofMove hg (hmoves m hm)
  case moves =>
    rw [List.map_map]
    exact List.map_congr_left fun m hm => TraceLine.move_ofMove (hmoves m hm)

end Derivation

/-- **A trace can be read back.** Its text consists of the lines that reading finds in it, these
tell the derivation, and derivations with the same trace go through the same forms by steps at the
same places. -/
theorem trace_read_back {text : String} {maxRules : Nat} {g : Grammar}
    (hread : Source.read maxRules text = .ok g) {d : Derivation} (hd : d.validIn g = true) :
    Text.lines d.trace.toList = (TraceLine.readAll d.trace).map TraceLine.chars ∧
    d.ToldBy g (TraceLine.readAll d.trace) ∧
    ∀ e : Derivation, e.validIn g = true → e.trace = d.trace →
      (e.steps.map fun step => (step.form, step.position)) =
        d.steps.map fun step => (step.form, step.position) := by
  have hg := Source.wellFormed_of_read hread
  have hlines := Derivation.readAll_trace (Derivation.isMove_of_validIn hg hd)
  have htold := Derivation.toldBy_moves hg hd
  rw [← hlines] at htold
  refine ⟨?_, htold, ?_⟩
  · rw [hlines]
    exact Derivation.lines_trace (Derivation.isMove_of_validIn hg hd)
  · intro e he htrace
    have heTold := Derivation.toldBy_moves hg he
    rw [← Derivation.readAll_trace (Derivation.isMove_of_validIn hg he), htrace] at heTold
    -- Both derivations have the moves that are read off the same lines.
    have hmoves := heTold.moves.symm.trans htold.moves
    have hsteps := congrArg (List.map fun m => (m.2.2, m.2.1)) hmoves
    rw [List.map_map, List.map_map] at hsteps
    rw [← e.map_snd_moves, ← d.map_snd_moves, List.map_map, List.map_map]
    exact hsteps

/-- The grammar `S → SS | ε`, in which the same forms come about by steps at different places. -/
def vanishingTwins : Grammar :=
  { nonterminals := .ofList ['S']
    terminals := .ofList []
    start := 'S'
    productions := [⟨'S', [.nonterminal 'S', .nonterminal 'S']⟩, ⟨'S', []⟩] }

/-- The derivation of the empty string in which the given one of two symbols vanishes first. -/
def twinsDerivation (position : Nat) : Derivation :=
  ⟨'S', [⟨[.nonterminal 'S', .nonterminal 'S'], 0, 0⟩, ⟨[.nonterminal 'S'], 1, position⟩,
    ⟨[], 1, 0⟩]⟩

/-- Which of the two symbols vanished first can be read off the trace. -/
theorem trace_read_back_twins :
    Source.read 1 "S = S\nP = \x7b\nS -> SS | ε\n\x7d" = .ok vanishingTwins ∧
      (twinsDerivation 1).validIn vanishingTwins = true ∧
      (twinsDerivation 1).trace = "*S* → SS\nS*S* → S\n*S* → ε" ∧
      (twinsDerivation 1).ToldBy vanishingTwins (TraceLine.readAll (twinsDerivation 1).trace) ∧
      (twinsDerivation 0).validIn vanishingTwins = true ∧
      (twinsDerivation 0).trace ≠ (twinsDerivation 1).trace := by
  have hread : Source.read 1 "S = S\nP = \x7b\nS -> SS | ε\n\x7d" = .ok vanishingTwins := by rfl
  have hsecond : (twinsDerivation 1).validIn vanishingTwins = true := by decide
  have hfirst : (twinsDerivation 0).validIn vanishingTwins = true := by decide
  obtain ⟨-, htold, hinjective⟩ := trace_read_back hread hsecond
  refine ⟨hread, hsecond, by decide +kernel, htold, hfirst, ?_⟩
  intro htrace
  exact absurd (hinjective _ hfirst htrace) (by decide)

end PhraseStructure
