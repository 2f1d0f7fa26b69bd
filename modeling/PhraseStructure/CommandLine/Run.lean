import PhraseStructure.CommandLine.Invocation
import PhraseStructure.Sampling

/-!
# Running a command

A command reads at most one file or its standard input, so all it does is a function of what it
reads: it writes to its two outputs and ends with an exit code. Problems are highlighted for a
terminal and end a command with code 1; a command line that cannot be read ends with code 2.
-/

namespace PhraseStructure.CommandLine

open Endpoint

/-- Why a file cannot be read. -/
inductive ReadFailure where
  | notFound
  | isDirectory
  | notText
  | other (text : String)
deriving DecidableEq, Repr

/-- The words for a failure. -/
def ReadFailure.message : ReadFailure → String
  | notFound => "No such file or directory (os error 2)"
  | isDirectory => "Is a directory (os error 21)"
  | notText => notUtf8
  | other text => text

/-- What a command can see of the world. -/
structure Surroundings where
  /-- The contents of files. -/
  file : String → Except ReadFailure ByteArray
  /-- What stands on standard input. -/
  input : ByteArray
  /-- Where random numbers start from when no seed is given. -/
  entropy : UInt32 := 0

/-- What a command leaves behind. -/
structure Transcript where
  code : Nat
  output : String := ""
  errors : String := ""
deriving DecidableEq, Repr

namespace Transcript

/-- A command that did what it should. -/
def success (output : String) : Transcript := { code := 0, output }

/-- A command that failed, with what it had written before. -/
def failure (errors : String) (output : String := "") : Transcript := { code := 1, output, errors }

end Transcript

/-- Bytes as text. -/
def decode (bytes : ByteArray) : Except ReadFailure String :=
  match String.fromUTF8? bytes with
  | some text => .ok text
  | none => .error .notText

/-- Lines with their ends. -/
def unlines (lines : List String) : String := String.join (lines.map (· ++ "\n"))

/-- A text with a line end. -/
def line (text : String) : String := text ++ "\n"

/-- Goes on with the text of a file, or tells why it cannot be read. -/
def withText (world : Surroundings) (file : String) (go : String → Transcript) : Transcript :=
  match world.file file >>= decode with
  | .ok text => go text
  | .error e => .failure (line (highlighted file ("File error: " ++ e.message)))

/-- The problems of a grammar, one to a line. -/
def grammarFailure (problems : List Source.Problem) : Transcript :=
  .failure (unlines (problems.map Located.highlight))

/-- Goes on with the grammar of a file. -/
def withGrammar (world : Surroundings) (limits : Limits) (file : String)
    (go : Grammar → Transcript) : Transcript :=
  withText world file fun text =>
    match Source.read limits.maxRules text with
    | .ok g => go g
    | .error problems => grammarFailure problems

/-- A verdict as JSON with a line for each field, or as its message and trace. -/
def showVerdict (json : Bool) (v : Verdict) : String :=
  if json then line ((verdictJson v).write .pretty)
  else line v.message ++ (v.derivation.map line).getD ""

/-- Evaluates a string. -/
def runEvaluate (world : Surroundings) (limits : Limits) (file input : String) (json : Bool) :
    Transcript :=
  withText world file fun text =>
    match Endpoint.evaluate limits ⟨some text, some input⟩ with
    | .ok v => .success (showVerdict json v)
    | .error (.malformedGrammar problems) => grammarFailure problems
    | .error e => .failure (line e.message)

/-- Answers a request. It succeeds if the status of the reply says so. -/
def runRequest (world : Surroundings) (limits : Limits) (route : Route) (file : Option String) :
    Transcript :=
  let reply (body : String) : Transcript :=
    let r := Endpoint.answer limits route body
    { code := if r.status = statusOk then 0 else 1, output := line r.body }
  match file with
  | some file => withText world file reply
  | none =>
    match decode world.input with
    | .ok body => reply body
    | .error e => .failure (line ("Could not read request from stdin: " ++ e.message))

/-- How often a sample is tried again. -/
def sampleAttempts : Nat := 20

/-- A sampled derivation: its string, its trace and an empty line. -/
def showSample (d : Derivation) : String := unlines [d.word, d.trace, ""]

/-- Shows samples until one fails. -/
def showSamples (g : Grammar) (maxSteps : Nat) :
    (amount : Nat) → Sampling.Draws → (output : String) → Transcript
  | 0, _, output => .success output
  | amount + 1, draws, output =>
    match Sampling.sample Sampling.Draws.next g maxSteps sampleAttempts draws with
    | (.ok d, draws) => showSamples g maxSteps amount draws (output ++ showSample d)
    | (.error problem, _) => .failure (line problem.highlight) output

/-- Why an address cannot be listened on. -/
inductive ListenFailure where
  | invalidSocketAddress
  | invalidPortValue
  | unavailable
deriving DecidableEq, Repr

/-- The words for a failure. -/
def ListenFailure.message : ListenFailure → String
  | invalidSocketAddress => "invalid socket address"
  | invalidPortValue => "invalid port value"
  | unavailable => "listening is not supported"

/-- Why an address cannot be listened on. A 16-bit number has to follow the last colon. This
program has no network of its own, so a usable address is refused too. -/
def listenFailure (address : String) : ListenFailure :=
  match address.toList.reverse.span (· != ':') with
  | (_, []) => .invalidSocketAddress
  | (digits, _ :: _) =>
    match Text.unsigned? 65535 (String.ofList digits.reverse) with
    | none => .invalidPortValue
    | some _ => .unavailable

/-- Runs a command. -/
def Invocation.run (world : Surroundings) (i : Invocation) : Transcript :=
  match i.command with
  | .evaluate file input json => runEvaluate world i.limits file input json
  | .classify file =>
    withGrammar world i.limits file fun g => .success (line g.classify.label)
  | .request route file => runRequest world i.limits route file
  | .serve address _ =>
    .failure (line (highlighted address ("Server error: " ++ (listenFailure address).message)))
  | .sample file amount seed maxSteps =>
    withGrammar world i.limits file fun g =>
      let state := (seed.map UInt32.ofNat).getD world.entropy
      showSamples g maxSteps amount { state } ""

/-- The name and version of the program. -/
def versionText : String := "chomsky 0.1.0"

/-- How the program is called. -/
def usageText : String :=
  "Usage: chomsky [OPTIONS] <evaluate|classify|request|serve|sample> [ARGUMENTS]"

/-- Runs the program with its arguments. -/
def run (world : Surroundings) (arguments : List String) : Transcript :=
  match Invocation.ofArguments arguments with
  | .ok i => i.run world
  | .error .version => .success (line versionText)
  | .error .help => .success (line usageText)
  | .error (.usage fault) =>
    { code := 2, errors := unlines ["error: " ++ fault.message, usageText] }

end PhraseStructure.CommandLine
