import PhraseStructure.CommandLine.Run

/-!
# The program

Reads what a command line needs, runs it, and writes what it leaves behind.
-/

namespace PhraseStructure.CommandLine

/-- The failure that an error of the system stands for. -/
def failureOf : IO.Error → ReadFailure
  | .noFileOrDirectory _ _ _ => .notFound
  | .inappropriateType _ 21 _ => .isDirectory
  | e => .other (toString e)

/-- Reads a file. -/
def contents (file : String) : IO (Except ReadFailure ByteArray) := do
  try
    return .ok (← IO.FS.readBinFile file)
  catch e =>
    return .error (failureOf e)

/-- Reads standard input to its end. -/
def allInput : IO ByteArray := do
  (← IO.getStdin).readBinToEnd

/-- The file that a command reads. -/
def fileOf : Command → Option String
  | .evaluate file _ _ => some file
  | .classify file => some file
  | .request _ file => file
  | .serve _ _ => none
  | .sample file _ _ _ => some file

/-- Whether a command reads standard input. -/
def readsInput : Command → Bool
  | .request _ none => true
  | _ => false

/-- What the arguments let the program see. -/
def surroundings (arguments : List String) : IO Surroundings := do
  match Invocation.ofArguments arguments with
  | .error _ => return { file := fun _ => .error .notFound, input := .empty }
  | .ok i =>
    let content ← match fileOf i.command with
      | some file => contents file
      | none => pure (.error .notFound)
    let input ← if readsInput i.command then allInput else pure .empty
    let entropy ← IO.rand 0 (Sampling.drawRange - 1)
    return { file := fun _ => content, input, entropy := .ofNat entropy }

end PhraseStructure.CommandLine

open PhraseStructure.CommandLine in
def main (arguments : List String) : IO UInt32 := do
  let transcript := run (← surroundings arguments) arguments
  (← IO.getStdout).putStr transcript.output
  (← IO.getStderr).putStr transcript.errors
  return .ofNat transcript.code
