import PhraseStructure.Text.Numeral
import PhraseStructure.Limits

/-!
# Options of a command line

An argument that starts with a dash is an option: `--name`, `--name=value`, or a cluster of one
letter options such as `-vn2`. A value may follow as an argument of its own, unless that looks
like an option itself. After `--` every argument is a plain one, and a dash alone is plain too. An
option may be given once. Arguments are looked at in order, and the first one that cannot be
accepted, or asks for information only, settles the outcome.
-/

namespace PhraseStructure.CommandLine

/-- What an option needs. -/
inductive OptionKind where
  | flag
  /-- A text, which may be empty. -/
  | text
  /-- An unsigned 64-bit number. -/
  | count
  /-- An unsigned 32-bit number. -/
  | amount
  /-- A request for the version. -/
  | version
  /-- A request for help. -/
  | help
deriving DecidableEq, Repr

namespace OptionKind

/-- Whether the option takes a value. -/
def takesValue : OptionKind → Bool
  | text | count | amount => true
  | flag | version | help => false

/-- The number that a value stands for. -/
def number? : OptionKind → String → Option Nat
  | count, s => Text.unsigned? maxCount s
  | amount, s => Text.nonnegative? 4294967295 s
  | _, _ => none

/-- Whether a value can be used. -/
def accepts (kind : OptionKind) (value : String) : Bool :=
  match kind with
  | text => true
  | other => (other.number? value).isSome

end OptionKind

/-- An option and its names. -/
structure OptionSpec where
  name : String
  letter : Option Char := none
  kind : OptionKind
deriving DecidableEq, Repr

/-- A reason to refuse a command line. -/
inductive UsageFault where
  | unknownOption (name : String)
  | missingValue (name : String)
  | unexpectedValue (name : String)
  | invalidValue (name : String)
  | repeatedOption (name : String)
  | missingArgument (name : String)
  | unexpectedArgument (argument : String)
  | missingCommand
deriving DecidableEq, Repr

/-- The words for a fault. -/
def UsageFault.message : UsageFault → String
  | unknownOption name => "unexpected option '" ++ name ++ "'"
  | missingValue name => "option '" ++ name ++ "' needs a value"
  | unexpectedValue name => "option '" ++ name ++ "' takes no value"
  | invalidValue name => "invalid value for '" ++ name ++ "'"
  | repeatedOption name => "option '" ++ name ++ "' is given more than once"
  | missingArgument name => "argument '" ++ name ++ "' is missing"
  | unexpectedArgument argument => "unexpected argument '" ++ argument ++ "'"
  | missingCommand => "a command is needed"

/-- Why the reading of a command line ends before its end. -/
inductive Stop where
  | usage (fault : UsageFault)
  | version
  | help
deriving DecidableEq, Repr

/-- What has been read: option values by name, flags with an empty one, and plain arguments. -/
structure Matches where
  options : List (String × String) := []
  plain : List String := []
deriving DecidableEq, Repr

namespace Matches

/-- The value of an option. -/
def value? (m : Matches) (name : String) : Option String := m.options.lookup name

/-- Whether a flag was given. -/
def has (m : Matches) (name : String) : Bool := (m.value? name).isSome

/-- The number of an option of a kind. -/
def number? (m : Matches) (name : String) (kind : OptionKind) : Option Nat :=
  (m.value? name).bind kind.number?

/-- Takes up an option, which may not be given twice. -/
def set (m : Matches) (spec : OptionSpec) (value : String) : Except Stop Matches :=
  if m.has spec.name then .error (.usage (.repeatedOption spec.name))
  else .ok { m with options := m.options ++ [(spec.name, value)] }

/-- Takes up an option with its value. -/
def setValue (m : Matches) (spec : OptionSpec) (value : String) : Except Stop Matches :=
  if spec.kind.accepts value then m.set spec value
  else .error (.usage (.invalidValue spec.name))

/-- Takes up an option that has no value. -/
def setFlag (m : Matches) (spec : OptionSpec) : Except Stop Matches :=
  match spec.kind with
  | .version => .error .version
  | .help => .error .help
  | _ => m.set spec ""

/-- Takes up a plain argument. -/
def addPlain (m : Matches) (argument : String) : Matches :=
  { m with plain := m.plain ++ [argument] }

end Matches

/-- The form of an argument. -/
inductive Argument where
  /-- The mark after which all arguments are plain. -/
  | escape
  | long (name : String) (value : Option String)
  | cluster (letters : List Char)
  | plain
deriving DecidableEq, Repr

namespace Argument

/-- Cuts a long option at its first equals sign. -/
def ofLong (cs : List Char) : Argument :=
  match cs.span (· != '=') with
  | (name, _ :: value) => long (String.ofList name) (some (String.ofList value))
  | (name, []) => long (String.ofList name) none

/-- The form of an argument that may be an option. -/
def ofString (argument : String) : Argument :=
  match argument.toList with
  | ['-', '-'] => escape
  | '-' :: '-' :: rest => ofLong rest
  | ['-'] => plain
  | '-' :: letters => cluster letters
  | _ => plain

end Argument

/-- The options and arguments of a command. -/
structure CommandSpec where
  options : List OptionSpec
  /-- How many plain arguments it takes; a command group takes none, its first plain argument is
  the name of a command. -/
  arguments : Option Nat
deriving DecidableEq, Repr

namespace CommandSpec

/-- The option with a long name. -/
def named? (spec : CommandSpec) (name : String) : Option OptionSpec :=
  spec.options.find? fun o => o.name == name

/-- The option with a letter. -/
def lettered? (spec : CommandSpec) (letter : Char) : Option OptionSpec :=
  spec.options.find? fun o => o.letter == some letter

/-- Reads a cluster of one letter options. An option that takes a value takes the rest of the
cluster, after an equals sign if there is one; if there is no rest, the value is still to come. -/
def readCluster (spec : CommandSpec) (m : Matches) :
    List Char → Except Stop (Matches × Option OptionSpec)
  | [] => .ok (m, none)
  | letter :: rest =>
    match spec.lettered? letter with
    | none => .error (.usage (.unknownOption ("-" ++ letter.toString)))
    | some o =>
      if o.kind.takesValue then
        match rest with
        | [] => .ok (m, some o)
        | '=' :: value => do return (← m.setValue o (String.ofList value), none)
        | value => do return (← m.setValue o (String.ofList value), none)
      else do spec.readCluster (← m.setFlag o) rest

/-- Reads a long option. Without a value of its own, one that takes a value waits for it. -/
def readLong (spec : CommandSpec) (m : Matches) (name : String) (value : Option String) :
    Except Stop (Matches × Option OptionSpec) :=
  match spec.named? name with
  | none => .error (.usage (.unknownOption ("--" ++ name)))
  | some o =>
    match o.kind.takesValue, value with
    | true, some value => do return (← m.setValue o value, none)
    | true, none => .ok (m, some o)
    | false, some _ => .error (.usage (.unexpectedValue o.name))
    | false, none => do return (← m.setFlag o, none)

/-- Reads an option; the second part is one that still waits for its value. -/
def readOption (spec : CommandSpec) (m : Matches) :
    Argument → Except Stop (Matches × Option OptionSpec)
  | .long name value => spec.readLong m name value
  | .cluster letters => spec.readCluster m letters
  | _ => .ok (m, none)

/-- Takes up a plain argument of a command. -/
def readPlain (arguments : Nat) (m : Matches) (argument : String) : Except Stop Matches :=
  if m.plain.length < arguments then .ok (m.addPlain argument)
  else .error (.usage (.unexpectedArgument argument))

/-- Reads arguments. A command group stops at its first plain argument and leaves the rest. -/
def read (spec : CommandSpec) : Matches → List String → Except Stop (Matches × List String)
  | m, [] => .ok (m, [])
  | m, argument :: rest =>
    match Argument.ofString argument with
    | .escape =>
      match spec.arguments with
      | some n => do return (← rest.foldlM (readPlain n) m, [])
      | none =>
        match rest with
        | [] => .ok (m, [])
        | next :: _ => .error (.usage (.unexpectedArgument next))
    | .plain =>
      match spec.arguments with
      | none => .ok (m, argument :: rest)
      | some n => do spec.read (← readPlain n m argument) rest
    | option => do
      let (m, waiting) ← spec.readOption m option
      match waiting with
      | none => spec.read m rest
      | some o =>
        match rest with
        | [] => .error (.usage (.missingValue o.name))
        | value :: rest =>
          if Argument.ofString value = .plain then spec.read (← m.setValue o value) rest
          else .error (.usage (.missingValue o.name))

end CommandSpec

end PhraseStructure.CommandLine
