import Mathlib.Data.List.TakeDrop
import PhraseStructure.CommandLine.Invocation

/-!
# Command lines for given limits

Every limits of 64-bit counts can be asked for on a command line: each count as an option before
the command's name. What follows the name is read on its own. An argument that starts with a dash
is taken for an option unless `--` stands before it, so a command with a free text among its
arguments is called with that mark.

* `unsigned?_toString`: a written count is read back.
* `read_counts`: counts that are given as options are taken up in order.
* `ofArguments_limitArguments`: what is asked for with given limits.
-/

namespace PhraseStructure

namespace Text

theorem digitsValue?_toDigits (n : Nat) : digitsValue? (Nat.toDigits 10 n) = some n := by
  have hdigits : ∀ c ∈ Nat.toDigits 10 n, c.isDigit = true := fun c hc =>
    Nat.isDigit_of_mem_toDigits (by omega) (by omega) hc
  have hvalue := Nat.ofDigitChars_ten_toDigits (n := n)
  rw [Nat.ofDigitChars_eq_foldl] at hvalue
  rw [digitsValue?, if_pos, hvalue]
  simpa using hdigits

/-- A written count is read back. -/
theorem unsigned?_toString {n max : Nat} (h : n ≤ max) : unsigned? max (toString n) = some n := by
  have hplus : '+' ∉ Nat.toDigits 10 n := fun hmem =>
    absurd (Nat.isDigit_of_mem_toDigits (by omega) (by omega) hmem) (by decide)
  have hlist : (toString n).toList = Nat.toDigits 10 n := by simp
  rw [unsigned?, hlist]
  split
  · next hcons =>
    rw [hcons] at hplus
    exact absurd List.mem_cons_self hplus
  · simp [within, digitsValue?_toDigits, h]

end Text

/-- All the limits are 64-bit counts. -/
structure Limits.AreCounts (limits : Limits) : Prop where
  maxRules : limits.maxRules ≤ maxCount
  lengthFactor : limits.search.lengthFactor ≤ maxCount
  extraSteps : ∀ n ∈ limits.search.extraSteps, n ≤ maxCount
  maxStates : limits.search.maxStates ≤ maxCount

namespace CommandLine

namespace Argument

/-- The argument is never taken for an option: it starts with no dash, or is a dash alone. -/
def IsPlain (s : String) : Prop := s = "-" ∨ s.toList.head? ≠ some '-'

theorem IsPlain.ofString_eq {s : String} (h : IsPlain s) : ofString s = plain := by
  rcases h with rfl | h
  · rfl
  · unfold ofString
    split <;> simp_all

theorem ofString_dashes {s : String} {c : Char} {cs : List Char}
    (h : s.toList = '-' :: '-' :: c :: cs) : ofString s = ofLong (c :: cs) := by
  rw [ofString, h]
  rfl

theorem ofLong_append {name : List Char} (h : '=' ∉ name) (value : List Char) :
    ofLong (name ++ '=' :: value) = long (String.ofList name) (some (String.ofList value)) := by
  have hbefore : ∀ c ∈ name, (c != '=') = true := by
    intro c hc
    rw [bne_iff_ne]
    rintro rfl
    exact h hc
  have hcut : (name ++ '=' :: value).span (· != '=') = (name, '=' :: value) := by
    rw [List.span_eq_takeWhile_dropWhile, List.takeWhile_append_of_pos hbefore,
      List.dropWhile_append_of_pos hbefore]
    simp
  rw [ofLong, hcut]

/-- The argument that gives an option a value. -/
def giving (name value : String) : String := "--" ++ name ++ "=" ++ value

theorem ofString_giving {name : String} (h : '=' ∉ name.toList) (value : String) :
    ofString (giving name value) = long name (some value) := by
  have hlist : (giving name value).toList =
      '-' :: '-' :: (name.toList ++ '=' :: value.toList) := by
    simp [giving]
  have hlong := ofLong_append h value.toList
  cases hrest : name.toList ++ '=' :: value.toList with
  | nil => simp at hrest
  | cons c cs =>
    rw [hrest] at hlist hlong
    rw [ofString_dashes hlist, hlong, String.ofList_toList, String.ofList_toList]

end Argument

theorem Matches.has_append (m : Matches) (name value other : String) :
    Matches.has { m with options := m.options ++ [(name, value)] } other =
      (m.has other || other == name) := by
  cases h : other == name <;> simp [has, value?, List.lookup_append, List.lookup_cons, h]

/-! ## Steps of the reader -/

namespace CommandSpec

variable {spec : CommandSpec} {m : Matches} {argument : String} {rest : List String}

theorem read_command (hspec : spec.arguments = none) (h : Argument.ofString argument = .plain) :
    spec.read m (argument :: rest) = .ok (m, argument :: rest) := by
  cases rest <;> simp only [read, h, hspec]

theorem read_plain {n : Nat} (hspec : spec.arguments = some n)
    (h : Argument.ofString argument = .plain) (hm : m.plain.length < n) :
    spec.read m (argument :: rest) = spec.read (m.addPlain argument) rest := by
  cases rest <;> simp only [read, h, hspec, readPlain, if_pos hm] <;> rfl

theorem read_long {m' : Matches} {name : String} {value : Option String}
    (h : Argument.ofString argument = .long name value)
    (hoption : spec.readLong m name value = .ok (m', none)) :
    spec.read m (argument :: rest) = spec.read m' rest := by
  cases rest <;> simp only [read, h, readOption, hoption] <;> rfl

theorem foldlM_readPlain {n : Nat} (h : m.plain.length + rest.length ≤ n) :
    rest.foldlM (readPlain n) m = .ok { m with plain := m.plain ++ rest } := by
  induction rest generalizing m with
  | nil => simp [pure, Except.pure]
  | cons argument rest ih =>
    rw [List.length_cons] at h
    have hm : m.plain.length < n := by omega
    rw [List.foldlM_cons, readPlain, if_pos hm]
    refine (ih (m := m.addPlain argument) ?_).trans ?_
    · simp [Matches.addPlain]
      omega
    · simp [Matches.addPlain]

theorem read_escape {n : Nat} (hspec : spec.arguments = some n)
    (h : m.plain.length + rest.length ≤ n) :
    spec.read m ("--" :: rest) = .ok ({ m with plain := m.plain ++ rest }, []) := by
  have hmark : Argument.ofString "--" = .escape := by decide
  have hplain := foldlM_readPlain h
  cases rest <;> simp only [read, hmark, hspec, hplain] <;> rfl

theorem read_flag {name : String} (h : Argument.ofString argument = .long name none)
    (hname : spec.named? name = some { name, kind := .flag }) (hm : m.has name = false) :
    spec.read m (argument :: rest) =
      spec.read { m with options := m.options ++ [(name, "")] } rest := by
  refine read_long h ?_
  simp only [readLong, hname, OptionKind.takesValue, Matches.setFlag, Matches.set, hm,
    Bool.false_eq_true, if_false]
  rfl

/-! ## Options that are counts -/

/-- The command has an option with the name, which takes a count. -/
def HasCount (spec : CommandSpec) (name : String) : Prop :=
  '=' ∉ name.toList ∧ spec.named? name = some { name, kind := .count }

theorem read_count {name : String} (hname : spec.HasCount name) (hm : m.has name = false) {n : Nat}
    (hn : n ≤ maxCount) :
    spec.read m (Argument.giving name (toString n) :: rest) =
      spec.read { m with options := m.options ++ [(name, toString n)] } rest := by
  have haccepts : OptionKind.count.accepts (toString n) = true := by
    rw [OptionKind.accepts, OptionKind.number?, Text.unsigned?_toString hn]
    · rfl
    · intro h
      cases h
  refine read_long (Argument.ofString_giving hname.1 _) ?_
  simp only [readLong, hname.2, OptionKind.takesValue, Matches.setValue, haccepts, if_true,
    Matches.set, hm, Bool.false_eq_true, if_false]
  rfl

/-- Options for counts, each with a value of its own. -/
def countArguments (counts : List (String × Nat)) : List String :=
  counts.map fun count => Argument.giving count.1 (toString count.2)

/-- Counts as they are taken up. -/
def countValues (counts : List (String × Nat)) : List (String × String) :=
  counts.map fun count => (count.1, toString count.2)

/-- **Counts are taken up in the order in which they are given.** -/
theorem read_counts {counts : List (String × Nat)} (hname : ∀ count ∈ counts, spec.HasCount count.1)
    (hn : ∀ count ∈ counts, count.2 ≤ maxCount) (hnodup : (counts.map Prod.fst).Nodup)
    (hm : ∀ count ∈ counts, m.has count.1 = false) :
    spec.read m (countArguments counts ++ rest) =
      spec.read { m with options := m.options ++ countValues counts } rest := by
  induction counts generalizing m with
  | nil => simp [countArguments, countValues]
  | cons count counts ih =>
    rw [List.forall_mem_cons] at hname hn hm
    rw [List.map_cons, List.nodup_cons] at hnodup
    have hrest : ∀ other ∈ counts,
        Matches.has { m with options := m.options ++ [(count.1, toString count.2)] } other.1 =
          false := by
      intro other hother
      have hne : other.1 ≠ count.1 := fun h => hnodup.1 (h ▸ List.mem_map_of_mem hother)
      rw [Matches.has_append, hm.2 other hother]
      simpa using hne
    refine (read_count hname.1 hm.1 hn.1).trans ((ih hname.2 hn.2 hnodup.2 hrest).trans ?_)
    simp [countValues]

end CommandSpec

/-! ## Limits -/

/-- The names of the options for limits that are counts. -/
def limitNames : List String := ["max-rules", "length-factor", "extra-steps", "max-states"]

/-- The limits that are counts, with the names of their options. -/
def limitCounts (limits : Limits) : List (String × Nat) :=
  [("max-rules", limits.maxRules), ("length-factor", limits.search.lengthFactor)]
    ++ limits.search.extraSteps.toList.map (("extra-steps", ·))
    ++ [("max-states", limits.search.maxStates)]

/-- Options that set all the limits. -/
def limitArguments (limits : Limits) : List String :=
  CommandSpec.countArguments (limitCounts limits)
    ++ if limits.search.exactIfEpsilonFree then [] else ["--bounded"]

/-- The limits as they are taken up. -/
def limitMatches (limits : Limits) : Matches :=
  { options := CommandSpec.countValues (limitCounts limits)
      ++ if limits.search.exactIfEpsilonFree then [] else [("bounded", "")] }

theorem le_maxCount_of_mem_limitCounts {limits : Limits} (h : limits.AreCounts)
    {count : String × Nat} (hcount : count ∈ limitCounts limits) : count.2 ≤ maxCount := by
  obtain ⟨hrules, hfactor, hextra, hstates⟩ := h
  simp only [limitCounts, List.mem_append, List.mem_cons, List.not_mem_nil, or_false, List.mem_map,
    Option.mem_toList] at hcount
  rcases hcount with ((rfl | rfl) | ⟨n, hn, rfl⟩) | rfl
  · exact hrules
  · exact hfactor
  · exact hextra n hn
  · exact hstates

theorem map_fst_limitCounts (limits : Limits) :
    ((limitCounts limits).map Prod.fst).Sublist limitNames := by
  cases hextra : limits.search.extraSteps <;> simp [limitCounts, limitNames, hextra]

theorem hasCount_of_mem_limitCounts {limits : Limits} {count : String × Nat}
    (h : count ∈ limitCounts limits) : groupSpec.HasCount count.1 := by
  have hall : ∀ name ∈ limitNames, '=' ∉ name.toList ∧
      groupSpec.named? name = some { name, kind := .count } := by decide
  exact hall _ ((map_fst_limitCounts limits).subset (List.mem_map_of_mem h))

theorem lookup_countValues {counts : List (String × Nat)} (hnodup : (counts.map Prod.fst).Nodup)
    {count : String × Nat} (h : count ∈ counts) (more : List (String × String)) :
    (CommandSpec.countValues counts ++ more).lookup count.1 = some (toString count.2) := by
  induction counts with
  | nil => cases h
  | cons first counts ih =>
    rw [List.map_cons, List.nodup_cons] at hnodup
    rcases List.mem_cons.1 h with rfl | h
    · exact List.lookup_cons_self
    · have hne : (count.1 == first.1) = false := by
        rw [beq_eq_false_iff_ne]
        exact fun heq => hnodup.1 (heq ▸ List.mem_map_of_mem h)
      have hlater := ih hnodup.2 h
      simpa [CommandSpec.countValues, List.lookup_cons, hne] using hlater

theorem lookup_countValues_of_not_mem {counts : List (String × Nat)} {name : String}
    (h : name ∉ counts.map Prod.fst) (more : List (String × String)) :
    (CommandSpec.countValues counts ++ more).lookup name = more.lookup name := by
  have hnone : (CommandSpec.countValues counts).lookup name = none := by
    rw [List.lookup_eq_none_iff]
    intro value hvalue
    obtain ⟨count, hcount, rfl⟩ := List.mem_map.1 hvalue
    rw [bne_iff_ne]
    rintro rfl
    exact h (List.mem_map_of_mem hcount)
  rw [List.lookup_append, hnone, Option.none_or]

theorem bounded_not_mem_limitCounts (limits : Limits) :
    "bounded" ∉ (limitCounts limits).map Prod.fst := by
  intro h
  have hnot : "bounded" ∉ limitNames := by decide
  exact hnot ((map_fst_limitCounts limits).subset h)

theorem read_limitArguments {limits : Limits} (h : limits.AreCounts) {name : String}
    (hname : Argument.ofString name = .plain) (rest : List String) :
    groupSpec.read {} (limitArguments limits ++ name :: rest) =
      .ok (limitMatches limits, name :: rest) := by
  have hnodup := (map_fst_limitCounts limits).nodup (by decide)
  rw [limitArguments, List.append_assoc, CommandSpec.read_counts
    (fun _ => hasCount_of_mem_limitCounts) (fun _ => le_maxCount_of_mem_limitCounts h) hnodup
    fun _ _ => rfl]
  cases hexact : limits.search.exactIfEpsilonFree with
  | true =>
    simp only [if_true, List.nil_append, limitMatches, hexact, List.append_nil]
    exact CommandSpec.read_command rfl hname
  | false =>
    simp only [Bool.false_eq_true, if_false, List.nil_append, limitMatches, hexact,
      List.cons_append]
    rw [CommandSpec.read_flag (show _ = Argument.long "bounded" none by decide) (by decide)]
    · exact CommandSpec.read_command rfl hname
    · have hnone := lookup_countValues_of_not_mem (bounded_not_mem_limitCounts limits) []
      rw [List.append_nil] at hnone
      simp [Matches.has, Matches.value?, hnone]

theorem number?_limitMatches {limits : Limits} (h : limits.AreCounts) {count : String × Nat}
    (hcount : count ∈ limitCounts limits) :
    (limitMatches limits).number? count.1 .count = some count.2 := by
  have hnodup := (map_fst_limitCounts limits).nodup (by decide)
  have hread := Text.unsigned?_toString (le_maxCount_of_mem_limitCounts h hcount)
  rw [Matches.number?, Matches.value?, limitMatches, lookup_countValues hnodup hcount]
  exact hread

theorem limitsOf_limitMatches {limits : Limits} (h : limits.AreCounts) {after : Matches}
    (hafter : after.options = [] ∨ after.options = [("json", "")]) :
    limitsOf (limitMatches limits) after = limits := by
  have hnone : ∀ name ∈ limitNames, after.number? name .count = none := by
    rcases hafter with hafter | hafter <;>
      simp [limitNames, Matches.number?, Matches.value?, hafter]
  have hflag : after.has "bounded" = false := by
    rcases hafter with hafter | hafter <;> simp [Matches.has, Matches.value?, hafter]
  have hrules := number?_limitMatches h
    (show ("max-rules", limits.maxRules) ∈ limitCounts limits by simp [limitCounts])
  have hfactor := number?_limitMatches h
    (show ("length-factor", limits.search.lengthFactor) ∈ limitCounts limits by simp [limitCounts])
  have hstates := number?_limitMatches h
    (show ("max-states", limits.search.maxStates) ∈ limitCounts limits by simp [limitCounts])
  have hextra : (limitMatches limits).number? "extra-steps" .count = limits.search.extraSteps := by
    cases hgiven : limits.search.extraSteps with
    | none =>
      rw [Matches.number?, Matches.value?, limitMatches, lookup_countValues_of_not_mem]
      · split <;> rfl
      · simp [limitCounts, hgiven]
    | some n =>
      have hmem : ("extra-steps", n) ∈ limitCounts limits := by simp [limitCounts, hgiven]
      exact number?_limitMatches h hmem
  have hbounded : (limitMatches limits).has "bounded" = !limits.search.exactIfEpsilonFree := by
    rw [Matches.has, Matches.value?, limitMatches,
      lookup_countValues_of_not_mem (bounded_not_mem_limitCounts limits)]
    cases limits.search.exactIfEpsilonFree <;> rfl
  simp only [limitNames, List.forall_mem_cons] at hnone
  simp [limitsOf, hnone, hflag, hrules, hfactor, hstates, hextra, hbounded]

/-- **What is asked for with given limits** is a command with these limits. -/
theorem ofArguments_limitArguments {limits : Limits} (h : limits.AreCounts) {name : String}
    (hname : Argument.ofString name = .plain) (hhelp : name ≠ "help") {spec : CommandSpec}
    (hspec : specOf? name = some spec) {rest : List String} {after : Matches}
    (hread : spec.read {} rest = .ok (after, []))
    (hafter : after.options = [] ∨ after.options = [("json", "")]) {command : Command}
    (hcommand : commandOf name after = .ok command) :
    Invocation.ofArguments (limitArguments limits ++ name :: rest) = .ok ⟨limits, command⟩ := by
  have hlimits := limitsOf_limitMatches h hafter
  rw [Invocation.ofArguments, read_limitArguments h hname]
  simp only [bind, Except.bind, hspec, hread, hcommand, hlimits]
  rfl

theorem fileName_of_ne_empty {file : String} (h : file ≠ "") : fileName file = .ok file := by
  simp [fileName, h]

/-- What may stand after the name of the command that evaluates a string. -/
def evaluateSpec : CommandSpec := commandSpec 2 [{ name := "json", kind := .flag }]

theorem commandOf_evaluate {file : String} (h : file ≠ "") (input : String) :
    commandOf "evaluate" ⟨[("json", "")], [file, input]⟩ = .ok (.evaluate file input true) := by
  have hfile : fileArgument ⟨[("json", "")], [file, input]⟩ = .ok file := fileName_of_ne_empty h
  simp only [commandOf, hfile]
  rfl

section
variable {limits : Limits} (h : limits.AreCounts)
include h

theorem ofArguments_request :
    Invocation.ofArguments (limitArguments limits ++ ["request", "evaluate"]) =
      .ok ⟨limits, .request .evaluate none⟩ := by
  have hread : (commandSpec 2 []).read {} ["evaluate"] = .ok (⟨[], ["evaluate"]⟩, []) := by decide
  exact ofArguments_limitArguments h (by decide) (by decide) rfl hread (.inl rfl) rfl

theorem ofArguments_request_file {file : String} (hfile : file ≠ "") :
    Invocation.ofArguments (limitArguments limits ++ ["request", "evaluate", "--", file]) =
      .ok ⟨limits, .request .evaluate (some file)⟩ := by
  have hread : (commandSpec 2 []).read {} ["evaluate", "--", file] =
      .ok (⟨[], ["evaluate", file]⟩, []) := by
    rw [CommandSpec.read_plain rfl (by decide) (by decide)]
    exact CommandSpec.read_escape rfl (by simp [Matches.addPlain])
  refine ofArguments_limitArguments h (by decide) (by decide) rfl hread (.inl rfl) ?_
  change (do return Command.request .evaluate (some (← fileName file))) = _
  rw [fileName_of_ne_empty hfile]
  rfl

theorem ofArguments_evaluate {file : String} (hfile : file ≠ "") (input : String) :
    Invocation.ofArguments (limitArguments limits ++ ["evaluate", "--json", "--", file, input]) =
      .ok ⟨limits, .evaluate file input true⟩ := by
  have hread : evaluateSpec.read {} ["--json", "--", file, input] =
      .ok (⟨[("json", "")], [file, input]⟩, []) := by
    rw [CommandSpec.read_flag (show _ = Argument.long "json" none by decide) (by decide) rfl]
    exact CommandSpec.read_escape rfl (by simp)
  exact ofArguments_limitArguments h (by decide) (by decide) rfl hread (.inr rfl)
    (commandOf_evaluate hfile input)

theorem ofArguments_evaluate_plain {file input : String} (hfile : file ≠ "")
    (hplain : Argument.IsPlain file) (hinput : Argument.IsPlain input) :
    Invocation.ofArguments (limitArguments limits ++ ["evaluate", file, input, "--json"]) =
      .ok ⟨limits, .evaluate file input true⟩ := by
  have hread : evaluateSpec.read {} [file, input, "--json"] =
      .ok (⟨[("json", "")], [file, input]⟩, []) := by
    rw [CommandSpec.read_plain rfl hplain.ofString_eq (by decide),
      CommandSpec.read_plain rfl hinput.ofString_eq (by simp [Matches.addPlain]),
      CommandSpec.read_flag (show _ = Argument.long "json" none by decide) (by decide) rfl]
    rfl
  exact ofArguments_limitArguments h (by decide) (by decide) rfl hread (.inr rfl)
    (commandOf_evaluate hfile input)

end

end CommandLine

end PhraseStructure
