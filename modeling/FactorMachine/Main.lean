import FactorMachine.CommandLine.Outcome

/-!
# FactorMachine — the program

Carries out a command line on the real files. Everything that is decided is decided in
`FactorMachine.CommandLine`.
-/

namespace FactorMachine.CommandLine

/-- A file's content, if it can be read. -/
def readFile? (path : String) : IO (Option ByteArray) :=
  try some <$> IO.FS.readBinFile path
  catch _ => pure none

/-- The files that an invocation reads. -/
def Invocation.inputFiles (i : Invocation) : List String :=
  let listing := match i.command with
    | .run file _ _ => [file]
    | .disassemble file => [file]
    | .generate _ _ _ => []
    | .train _ _ _ => []
  i.config.toList ++ listing

/-- A random identifier of 128 bits in the usual form: version 4, variant 1. -/
def randomIdentifier : IO String := do
  let digits ← (List.range 32).mapM fun _ => IO.rand 0 15
  let fixed := digits.zipIdx.map fun (d, i) =>
    Json.hexDigit (if i = 12 then 4 else if i = 16 then 8 + d % 4 else d)
  let group (start size : Nat) : String := String.ofList ((fixed.drop start).take size)
  return "-".intercalate [group 0 8, group 8 4, group 12 4, group 16 4, group 20 12]

/-- Carries out effects in order, up to a write that fails, and gives the failure. -/
def carryOut : List Effect → IO (Option String)
  | [] => pure none
  | .print text :: rest => do
    IO.print text
    carryOut rest
  | .printSummary summary :: rest => do
    IO.println (summary.toJson (← randomIdentifier)).print
    carryOut rest
  | .note line :: rest => do
    IO.eprintln line
    carryOut rest
  | .write path content failure :: rest => do
    let written ← try IO.FS.writeFile path content; pure true
      catch _ => pure false
    if written then carryOut rest else pure (some failure)

/-- Carries out an invocation and gives the exit code. -/
def Invocation.execute (i : Invocation) : IO UInt32 := do
  let contents ← i.inputFiles.mapM fun path => do return (path, ← readFile? path)
  let files : Files := fun path => (contents.lookup path).join
  let entropy : Entropy := ⟨← IO.rand 0 (countBound - 1), ← IO.rand 0 (countBound - 1)⟩
  let outcome := perform i files entropy
  let failure := (← carryOut outcome.effects) <|> outcome.failure
  if let some message := failure then IO.eprint (failureText message)
  return (exitCode failure).toUInt32

/-- Carries out a command line and gives the exit code. -/
def execute (args : List String) : IO UInt32 := do
  match parse args with
  | .ok invocation => invocation.execute
  | .error e =>
    match e with
    | .help => IO.print usageText
    | .misuse problem => IO.eprint s!"error: {problem}\n\n{usageText}"
    return (usageExitCode e).toUInt32

end FactorMachine.CommandLine

def main (args : List String) : IO UInt32 := FactorMachine.CommandLine.execute args
