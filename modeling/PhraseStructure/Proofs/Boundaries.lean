import PhraseStructure.CommandLine.Run
import PhraseStructure.Proofs.Document
import PhraseStructure.Proofs.Invocation

/-!
# The ways to ask for an evaluation

A string is evaluated from within a program, over a request with a JSON body, and by two commands.
All of them give the same verdict, since a body is read back as the request it was written from and
a reply as the verdict it was written from, whatever characters the grammar text and the string
have. On a command line this needs some care: a string that starts with a dash is taken for an
option, and has to stand after `--` (`dashed_input_refused`).

* `EvaluationRequest.read_write`: a written request is read back.
* `decodeVerdict?_of_read`, `decodeError?_of_read`: what a reply says can be told from its body.
* `boundaries_agree`: the same answer comes from everywhere.
-/

namespace PhraseStructure

open Json (Layout)
open Json.Value

/-! ## Bodies of replies -/

namespace Json.Value

/-- The text that a value stands for. -/
def text? : Value → Option String
  | string (some cs) => some (String.ofList cs)
  | _ => none

/-- The text that a value stands for, which may be missing. -/
def optionalText? : Value → Option (Option String)
  | null => some none
  | value => value.text?.map some

/-- The answer to a question that a value stands for. -/
def truth? : Value → Option Bool
  | bool b => some b
  | _ => none

/-- The value of a field that is given once. -/
def field? (name : String) : Value → Option Value
  | object fields =>
    match fields.filter fun field => field.1 == some name.toList with
    | [(_, value)] => some value
    | _ => none
  | _ => none

theorem text?_ofString (s : String) : (ofString s).text? = some s := by
  simp [ofString, text?]

theorem optionalText?_ofString? (s : Option String) : (ofString? s).optionalText? = some s := by
  cases s <;> simp [ofString?, optionalText?, ofString, text?]

theorem numberFree_ofString? (s : Option String) : NumberFree (ofString? s) := by
  cases s
  · exact .null
  · exact .string _

theorem numberFree_ofFields {fields : List (String × Value)}
    (h : ∀ field ∈ fields, NumberFree field.2) : NumberFree (ofFields fields) := by
  refine .object fun field hfield => ?_
  obtain ⟨named, hnamed, rfl⟩ := List.mem_map.1 hfield
  exact h named hnamed

/-- Among fields with different names there is one with a given name. -/
theorem filter_named {fields : List (String × Value)} (hnodup : (fields.map Prod.fst).Nodup)
    {name : String} {value : Value} (h : (name, value) ∈ fields) :
    (fields.map fun (name, value) => (some name.toList, value)).filter
        (fun field => field.1 == some name.toList) = [(some name.toList, value)] := by
  induction fields with
  | nil => cases h
  | cons field fields ih =>
    rw [List.map_cons, List.nodup_cons] at hnodup
    rcases List.mem_cons.1 h with rfl | h
    · have hrest : ∀ other ∈ fields, other.1 ≠ name := by
        rintro other hother rfl
        exact hnodup.1 (List.mem_map.2 ⟨other, hother, rfl⟩)
      simpa [List.filter_map, String.toList_inj] using hrest
    · have hne : field.1 ≠ name := by
        rintro rfl
        exact hnodup.1 (List.mem_map.2 ⟨_, h, rfl⟩)
      rw [List.map_cons, List.filter_cons_of_neg, ih hnodup.2 h]
      simpa [String.toList_inj] using hne

theorem field?_ofFields {fields : List (String × Value)} (hnodup : (fields.map Prod.fst).Nodup)
    {name : String} {value : Value} (h : (name, value) ∈ fields) :
    (ofFields fields).field? name = some value := by
  simp only [ofFields, field?, filter_named hnodup h]

end Json.Value

namespace Endpoint

/-- The verdict that a body stands for. -/
def decodeVerdict? (body : String) : Option Verdict := do
  let value ← Json.read? body
  let grammarType ← (← value.field? "grammar_type").text?
  let belongs ← (← value.field? "belongs_to_grammar").truth?
  let message ← (← value.field? "message").text?
  let derivation ← (← value.field? "derivation").optionalText?
  return { grammarType, belongs, message, derivation }

/-- The error message that a body stands for. -/
def decodeError? (body : String) : Option String := do
  let value ← Json.read? body
  (← value.field? "error").text?

theorem numberFree_verdictJson (v : Verdict) : (verdictJson v).NumberFree := by
  refine numberFree_ofFields ?_
  simp only [List.forall_mem_cons]
  exact ⟨.string _, .bool _, .string _, numberFree_ofString? _, nofun⟩

theorem numberFree_errorJson (message : String) : (errorJson message).NumberFree := by
  refine numberFree_ofFields ?_
  simp only [List.forall_mem_cons]
  exact ⟨.string _, nofun⟩

theorem decodeVerdict?_of_read {body : String} {v : Verdict}
    (h : Json.read? body = some (verdictJson v)) : decodeVerdict? body = some v := by
  have htype : (verdictJson v).field? "grammar_type" = some (.ofString v.grammarType) :=
    field?_ofFields (by simp) (by simp)
  have hbelongs : (verdictJson v).field? "belongs_to_grammar" = some (.bool v.belongs) :=
    field?_ofFields (by simp) (by simp)
  have hmessage : (verdictJson v).field? "message" = some (.ofString v.message) :=
    field?_ofFields (by simp) (by simp)
  have hderivation : (verdictJson v).field? "derivation" = some (.ofString? v.derivation) :=
    field?_ofFields (by simp) (by simp)
  simp [decodeVerdict?, h, htype, hbelongs, hmessage, hderivation, text?_ofString, truth?,
    optionalText?_ofString?]

theorem decodeError?_of_read {body message : String}
    (h : Json.read? body = some (errorJson message)) : decodeError? body = some message := by
  have herror : (errorJson message).field? "error" = some (.ofString message) :=
    field?_ofFields (by simp) (by simp)
  simp [decodeError?, h, herror, text?_ofString]

/-! ## Bodies of requests -/

theorem namedField_ofFields {fields : List (String × Json.Value)}
    (hnodup : (fields.map Prod.fst).Nodup) {name : String} {text : Option String}
    (h : (name, Json.Value.ofString? text) ∈ fields) :
    namedField (fields.map fun (name, value) => (some name.toList, value)) name = .ok text := by
  simp only [namedField, filter_named hnodup h]
  cases text <;> simp [Json.Value.ofString?, Json.Value.ofString, fieldText]

theorem fieldTexts_toJson (r : EvaluationRequest) :
    fieldTexts ["grammar_text", "input_string"] r.toJson =
      .ok [r.grammarText, r.inputString] := by
  rw [EvaluationRequest.toJson, Json.Value.ofFields, fieldTexts, if_neg]
  · rw [List.mapM_cons, List.mapM_cons, List.mapM_nil, namedField_ofFields (by simp) (.head _),
      namedField_ofFields (by simp) (.tail _ (.head _))]
    rfl
  · simp

/-- **A written request is read back,** in any layout. -/
theorem EvaluationRequest.read_write {l : Layout} (hl : l.Blank) (r : EvaluationRequest) :
    read (r.toJson.write l) = .ok r := by
  have hfree : r.toJson.NumberFree := by
    refine numberFree_ofFields ?_
    simp only [List.forall_mem_cons]
    exact ⟨numberFree_ofString? _, numberFree_ofString? _, nofun⟩
  simp only [read, readFields, Json.read?_write hl hfree, fieldTexts_toJson]
  rfl

/-! ## Replies -/

/-- A reply tells what came of a request: the verdict, or else the words for the error. -/
def Reply.Tells (r : Reply) : Except Refusal Verdict → Prop
  | .ok v => r.status = statusOk ∧ decodeVerdict? r.body = some v
  | .error e => r.status = statusBadRequest ∧ decodeError? r.body = some e.message

theorem Reply.tells_ofResult (result : Except Refusal Verdict) :
    (Reply.ofResult verdictJson result).Tells result := by
  cases result with
  | ok v =>
    exact ⟨rfl, decodeVerdict?_of_read
      (Json.read?_write Layout.compact_blank (numberFree_verdictJson v))⟩
  | error e =>
    exact ⟨rfl, decodeError?_of_read
      (Json.read?_write Layout.compact_blank (numberFree_errorJson e.message))⟩

theorem answer_write (limits : Limits) {l : Layout} (hl : l.Blank) (r : EvaluationRequest) :
    answer limits .evaluate (r.toJson.write l) = .ofResult verdictJson (evaluate limits r) := by
  rw [answer, EvaluationRequest.read_write hl]
  rfl

theorem pathOf_query (query : String) : pathOf ("/evaluate?" ++ query) = "/evaluate" := by
  simp [pathOf]

theorem respond_evaluate (limits : Limits) {address : String} (h : pathOf address = "/evaluate")
    (body : String) : respond limits "POST" address body = answer limits .evaluate body := by
  simp [respond, h, Route.ofPath?]

end Endpoint

/-! ## Commands -/

namespace CommandLine

open Endpoint

theorem decode_toUTF8 (text : String) : decode text.toUTF8 = .ok text := by
  have htext : String.fromUTF8? text.toUTF8 = some text := by
    rw [String.fromUTF8?, String.toUTF8_eq_toByteArray, dif_pos text.isValidUTF8]
    rfl
  simp only [decode, htext]

theorem withText_eq {world : Surroundings} {file text : String}
    (h : world.file file = .ok text.toUTF8) (go : String → Transcript) :
    withText world file go = go text := by
  have hread : (world.file file >>= decode) = .ok text := by
    rw [h]
    exact decode_toUTF8 text
  simp only [withText, hread]

namespace Transcript

/-- A command writes a reply out, and succeeds if the reply's status says so. -/
def Repeats (t : Transcript) (r : Reply) : Prop :=
  (t.code = 0 ↔ r.status = statusOk) ∧ t.output = line r.body ∧ t.errors = ""

/-- A command succeeds if there is a verdict, and then writes it out. -/
def Shows (t : Transcript) (result : Except Refusal Verdict) : Prop :=
  (t.code = 0 ↔ ∃ v, result = .ok v) ∧ ∀ v, result = .ok v → decodeVerdict? t.output = some v

theorem repeats_reply (r : Reply) :
    Repeats { code := if r.status = statusOk then 0 else 1, output := line r.body } r := by
  refine ⟨?_, rfl, rfl⟩
  by_cases h : r.status = statusOk <;> simp [h]

theorem shows_success (v : Verdict) : (success (showVerdict true v)).Shows (.ok v) := by
  refine ⟨⟨fun _ => ⟨v, rfl⟩, fun _ => rfl⟩, ?_⟩
  intro shown hshown
  obtain rfl : v = shown := Except.ok.inj hshown
  have hend : Json.AllSpace "\n".toList := by simp [Json.AllSpace, Json.isSpace]
  exact decodeVerdict?_of_read
    (Json.read?_write_append Layout.pretty_blank (numberFree_verdictJson v) hend)

theorem shows_failure (errors : String) (e : Refusal) : (failure errors).Shows (.error e) := by
  refine ⟨⟨fun h => ?_, ?_⟩, ?_⟩
  · cases h
  · rintro ⟨_, h⟩
    cases h
  · rintro _ h
    cases h

end Transcript

section
variable {world : Surroundings} {limits : Limits} {arguments : List String}

theorem run_request_repeats {body : String}
    (h : Invocation.ofArguments arguments = .ok ⟨limits, .request .evaluate none⟩)
    (hinput : world.input = body.toUTF8) :
    (run world arguments).Repeats (answer limits .evaluate body) := by
  simp only [run, h, Invocation.run, runRequest, hinput, decode_toUTF8]
  exact Transcript.repeats_reply _

theorem run_request_file_repeats {file body : String}
    (h : Invocation.ofArguments arguments = .ok ⟨limits, .request .evaluate (some file)⟩)
    (hfile : world.file file = .ok body.toUTF8) :
    (run world arguments).Repeats (answer limits .evaluate body) := by
  simp only [run, h, Invocation.run, runRequest, withText_eq hfile]
  exact Transcript.repeats_reply _

theorem run_evaluate_shows {file input text : String}
    (h : Invocation.ofArguments arguments = .ok ⟨limits, .evaluate file input true⟩)
    (hfile : world.file file = .ok text.toUTF8) :
    (run world arguments).Shows (evaluate limits ⟨some text, some input⟩) := by
  simp only [run, h, Invocation.run, runEvaluate, withText_eq hfile]
  cases evaluate limits ⟨some text, some input⟩ with
  | ok v => exact Transcript.shows_success v
  | error e => cases e <;> exact Transcript.shows_failure _ _

end

/-- **All ways to ask for an evaluation agree.** A request that is written as JSON on one line or on
several is answered with the verdict or the error message of its evaluation, and the status tells
which. An address may have a query. The command that answers requests writes the same reply, and
the one that evaluates a string of its own shows the same verdict; both succeed if there is one.
There are command lines for all limits that are counts; a file name or string that starts with a
dash has to stand after `--`. -/
theorem boundaries_agree (limits : Limits) (text input : String) {l : Layout}
    (hl : l = .compact ∨ l = .pretty) {body : String}
    (hbody : body = (EvaluationRequest.toJson ⟨some text, some input⟩).write l) :
    (answer limits .evaluate body).Tells (evaluate limits ⟨some text, some input⟩) ∧
    respond limits "POST" "/evaluate" body = answer limits .evaluate body ∧
    (∀ query, respond limits "POST" ("/evaluate?" ++ query) body = answer limits .evaluate body) ∧
    (∀ world arguments,
      Invocation.ofArguments arguments = .ok ⟨limits, .request .evaluate none⟩ →
      world.input = body.toUTF8 →
      (run world arguments).Repeats (answer limits .evaluate body)) ∧
    (∀ world arguments file,
      Invocation.ofArguments arguments = .ok ⟨limits, .request .evaluate (some file)⟩ →
      world.file file = .ok body.toUTF8 →
      (run world arguments).Repeats (answer limits .evaluate body)) ∧
    (∀ world arguments file,
      Invocation.ofArguments arguments = .ok ⟨limits, .evaluate file input true⟩ →
      world.file file = .ok text.toUTF8 →
      (run world arguments).Shows (evaluate limits ⟨some text, some input⟩)) ∧
    (limits.AreCounts →
      Invocation.ofArguments (limitArguments limits ++ ["request", "evaluate"]) =
        .ok ⟨limits, .request .evaluate none⟩ ∧
      ∀ file ≠ "",
        Invocation.ofArguments (limitArguments limits ++ ["request", "evaluate", "--", file]) =
          .ok ⟨limits, .request .evaluate (some file)⟩ ∧
        Invocation.ofArguments
            (limitArguments limits ++ ["evaluate", "--json", "--", file, input]) =
          .ok ⟨limits, .evaluate file input true⟩ ∧
        (Argument.IsPlain file → Argument.IsPlain input →
          Invocation.ofArguments (limitArguments limits ++ ["evaluate", file, input, "--json"]) =
            .ok ⟨limits, .evaluate file input true⟩)) := by
  have hblank : l.Blank := by
    rcases hl with rfl | rfl
    · exact Layout.compact_blank
    · exact Layout.pretty_blank
  refine ⟨?_, respond_evaluate limits (by decide) body, ?_, ?_, ?_, ?_, ?_⟩
  · rw [hbody, answer_write limits hblank]
    exact Reply.tells_ofResult _
  · intro query
    exact respond_evaluate limits (pathOf_query query) body
  · intro world arguments h hinput
    exact run_request_repeats h hinput
  · intro world arguments file h hfile
    exact run_request_file_repeats h hfile
  · intro world arguments file h hfile
    exact run_evaluate_shows h hfile
  · intro hlimits
    refine ⟨ofArguments_request hlimits, fun file hfile => ?_⟩
    exact ⟨ofArguments_request_file hlimits hfile, ofArguments_evaluate hlimits hfile input,
      ofArguments_evaluate_plain hlimits hfile⟩

/-- A grammar text with one production. -/
def singleRule : String := "S = S\nP = \x7b\nS -> a\n\x7d"

/-- There is one file. -/
def oneFile (name content : String) : Surroundings :=
  { file := fun file => if file = name then .ok content.toUTF8 else .error .notFound
    input := .empty }

theorem oneFile_file (name content : String) :
    (oneFile name content).file name = .ok content.toUTF8 := by
  simp [oneFile]

theorem exists_evaluate_singleRule (input : String) :
    ∃ v, evaluate {} ⟨some singleRule, some input⟩ = .ok v := by
  have hread : (Source.read 10 singleRule).toOption.isSome = true := by decide +kernel
  cases h : Source.read 10 singleRule with
  | error problems =>
    rw [h] at hread
    cases hread
  | ok g =>
    refine ⟨.ofFinding g.classify input (search g g.classify input {}), ?_⟩
    simp only [evaluate, readGrammar, h]
    rfl

/-- A string of a dash, a quote, a backslash and a line end gets one verdict, over a request on
several lines and by a command. -/
theorem boundaries_agree_quoted :
    ∃ v, evaluate {} ⟨some singleRule, some "-\"\\\n"⟩ = .ok v ∧
      decodeVerdict? (answer {} .evaluate
        ((EvaluationRequest.toJson ⟨some singleRule, some "-\"\\\n"⟩).write .pretty)).body =
          some v ∧
      decodeVerdict? (run (oneFile "g" singleRule)
        (limitArguments {} ++ ["evaluate", "--json", "--", "g", "-\"\\\n"])).output = some v := by
  obtain ⟨v, hv⟩ := exists_evaluate_singleRule "-\"\\\n"
  obtain ⟨htells, -, -, -, -, hshows, hlines⟩ :=
    boundaries_agree {} singleRule "-\"\\\n" (.inr rfl) rfl
  have hcounts : Limits.AreCounts {} := ⟨by decide, by decide, nofun, by decide⟩
  obtain ⟨-, hline, -⟩ := (hlines hcounts).2 "g" (by decide)
  rw [hv] at htells
  exact ⟨v, hv, htells.2, (hshows (oneFile "g" singleRule) _ "g" hline (oneFile_file _ _)).2 v hv⟩

/-- Without the mark a string that starts with a dash is refused, although it can be evaluated. -/
theorem dashed_input_refused :
    (oneFile "g" singleRule).file "g" = .ok singleRule.toUTF8 ∧
    (∃ v, evaluate {} ⟨some singleRule, some "-a"⟩ = .ok v) ∧
    (run (oneFile "g" singleRule) ["evaluate", "g", "-a", "--json"]).code = 2 ∧
    ¬ (run (oneFile "g" singleRule) ["evaluate", "g", "-a", "--json"]).Shows
      (evaluate {} ⟨some singleRule, some "-a"⟩) := by
  have hfault : Invocation.ofArguments ["evaluate", "g", "-a", "--json"] =
      .error (.usage (.unknownOption "-a")) := by decide +kernel
  have hcode : (run (oneFile "g" singleRule) ["evaluate", "g", "-a", "--json"]).code = 2 := by
    simp only [run, hfault]
  refine ⟨oneFile_file _ _, exists_evaluate_singleRule "-a", hcode, fun h => ?_⟩
  have hzero := h.1.2 (exists_evaluate_singleRule "-a")
  rw [hcode] at hzero
  cases hzero

end CommandLine

end PhraseStructure
