import PhraseStructure.CommandLine.Options
import PhraseStructure.Endpoint.Route

/-!
# What a command line asks for

A command line names a command with its arguments. The limits may be set before or after the
command's name; if they are set in both places, what stands after it counts.
-/

namespace PhraseStructure.CommandLine

open Endpoint (Route)

/-- A command with its arguments. -/
inductive Command where
  /-- Decide whether a string belongs to the grammar of a file. -/
  | evaluate (file input : String) (json : Bool)
  /-- Tell the class of the grammar of a file. -/
  | classify (file : String)
  /-- Answer a request from a file, or else from standard input. -/
  | request (route : Route) (file : Option String)
  /-- Answer requests that come to a network address. -/
  | serve (address : String) (workers : Nat)
  /-- Show random derivations of the grammar of a file. -/
  | sample (file : String) (amount : Nat) (seed : Option Nat) (maxSteps : Nat)
deriving DecidableEq, Repr

/-- A command and the limits it runs under. -/
structure Invocation where
  limits : Limits
  command : Command
deriving DecidableEq, Repr

/-- The options that may stand before and after the command's name. -/
def commonOptions : List OptionSpec :=
  [ { name := "max-rules", kind := .count },
    { name := "length-factor", kind := .count },
    { name := "extra-steps", kind := .count },
    { name := "max-states", kind := .count },
    { name := "bounded", kind := .flag },
    { name := "verbose", letter := some 'v', kind := .flag },
    { name := "help", letter := some 'h', kind := .help } ]

/-- What may stand before the command's name. -/
def groupSpec : CommandSpec :=
  ⟨{ name := "version", letter := some 'V', kind := .version } :: commonOptions, none⟩

/-- A command's own options and the number of its arguments. -/
def commandSpec (arguments : Nat) (options : List OptionSpec) : CommandSpec :=
  ⟨options ++ commonOptions, some arguments⟩

/-- What may stand after the name of a command. -/
def specOf? : String → Option CommandSpec
  | "evaluate" => some (commandSpec 2 [{ name := "json", kind := .flag }])
  | "classify" => some (commandSpec 1 [])
  | "request" => some (commandSpec 2 [])
  | "serve" => some (commandSpec 0
      [{ name := "address", kind := .text }, { name := "workers", kind := .count }])
  | "sample" => some (commandSpec 1
      [{ name := "amount", letter := some 'n', kind := .amount },
       { name := "seed", kind := .count }, { name := "max-steps", kind := .count }])
  | _ => none

/-- The argument at a place. -/
def argument (m : Matches) (index : Nat) (name : String) : Except Stop String :=
  match m.plain[index]? with
  | some value => .ok value
  | none => .error (.usage (.missingArgument name))

/-- A file name, which may not be empty. -/
def fileName (name : String) : Except Stop String :=
  if name.isEmpty then .error (.usage (.invalidValue "FILE")) else .ok name

/-- The file that is the first argument. -/
def fileArgument (m : Matches) : Except Stop String := do fileName (← argument m 0 "FILE")

/-- The route that an argument names. -/
def routeOf : String → Except Stop Route
  | "evaluate" => .ok .evaluate
  | "check" => .ok .check
  | _ => .error (.usage (.invalidValue "ROUTE"))

/-- The command of a name with what was read after it. -/
def commandOf (name : String) (m : Matches) : Except Stop Command :=
  match name with
  | "evaluate" => do
    let file ← fileArgument m
    let input ← argument m 1 "INPUT"
    return .evaluate file input (m.has "json")
  | "classify" => do return .classify (← fileArgument m)
  | "request" => do
    let route ← routeOf (← argument m 0 "ROUTE")
    match m.plain[1]? with
    | some file => return .request route (some (← fileName file))
    | none => return .request route none
  | "serve" =>
    .ok (.serve ((m.value? "address").getD "127.0.0.1:5000") ((m.number? "workers" .count).getD 4))
  | "sample" => do
    let file ← fileArgument m
    return .sample file ((m.number? "amount" .amount).getD 1) (m.number? "seed" .count)
      ((m.number? "max-steps" .count).getD 50)
  | _ => .error (.usage .missingCommand)

/-- The limits set before and after the command's name. -/
def limitsOf (before after : Matches) : Limits :=
  let count? (name : String) : Option Nat :=
    (after.number? name .count).or (before.number? name .count)
  let defaults : Limits := {}
  { maxRules := (count? "max-rules").getD defaults.maxRules
    search := {
      lengthFactor := (count? "length-factor").getD defaults.search.lengthFactor
      extraSteps := count? "extra-steps"
      maxStates := (count? "max-states").getD defaults.search.maxStates
      exactIfEpsilonFree := !(before.has "bounded" || after.has "bounded") } }

/-- Reads a command line. -/
def Invocation.ofArguments (arguments : List String) : Except Stop Invocation := do
  let (before, rest) ← groupSpec.read {} arguments
  match rest with
  | [] => .error (.usage .missingCommand)
  | "help" :: _ => .error .help
  | name :: rest =>
    match specOf? name with
    | none => .error (.usage (.unexpectedArgument name))
    | some spec =>
      let (after, _) ← spec.read {} rest
      let command ← commandOf name after
      return ⟨limitsOf before after, command⟩

end PhraseStructure.CommandLine
