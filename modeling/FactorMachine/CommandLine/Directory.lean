import FactorMachine.CommandLine.Outcome

/-!
# FactorMachine — commands in a directory that is a value

A directory without subdirectories, and what is left behind when a command line is carried
out in it: the exit code, what was printed, and the files afterwards.
-/

namespace FactorMachine.CommandLine

/-- The files of a directory by name. -/
structure Directory where
  files : List (String × ByteArray)

namespace Directory

/-- The greatest number of bytes in the name of a file. -/
def maxNameBytes : Nat := 255

/-- The greatest number of bytes in a path. -/
def maxPathBytes : Nat := 4095

/-- Whether a step of a path names a file. -/
def isFileName (step : String) : Bool :=
  step != "" && step != "." && step != ".." && step.utf8ByteSize ≤ maxNameBytes

/-- The name of a file in this directory, if a path leads to one: all steps before the name
stay in the directory, and none follows it. -/
def fileName? (path : String) : Option String :=
  let steps := path.splitOn "/"
  let stays (step : String) : Bool := step == "." || step == ""
  match steps.getLast? with
  | some name =>
    if isFileName name ∧ steps.dropLast.all stays ∧ !path.startsWith "/" ∧
        path.utf8ByteSize ≤ maxPathBytes then some name
    else none
  | none => none

/-- The device outside the directory that swallows what is written and holds nothing. -/
def nullDevice : String := "/dev/null"

def read? (d : Directory) (path : String) : Option ByteArray :=
  if path = nullDevice then some .empty
  else (fileName? path).bind fun name => d.files.lookup name

/-- Writes a file, if the path leads into this directory. -/
def write? (d : Directory) (path : String) (content : ByteArray) : Option Directory :=
  if path = nullDevice then some d
  else (fileName? path).map fun name =>
    ⟨(name, content) :: d.files.filter (·.1 != name)⟩

end Directory

/-- What a command line leaves behind. -/
structure Trace where
  directory : Directory
  /-- What was printed, a summary apart, in reverse order. -/
  printed : List String
  /-- The summary that was printed. -/
  summary : Option TrainingSummary
  /-- What was written on the standard error, in reverse order. -/
  notes : List String
  failure : Option String

namespace Trace

def start (d : Directory) : Trace := ⟨d, [], none, [], none⟩

/-- Carries out effects in order, up to a write that fails. -/
def carryOut : List Effect → Trace → Trace
  | [], t => t
  | .print text :: rest, t => carryOut rest { t with printed := text :: t.printed }
  | .printSummary summary :: rest, t => carryOut rest { t with summary := some summary }
  | .note line :: rest, t => carryOut rest { t with notes := (line ++ "\n") :: t.notes }
  | .write path content failure :: rest, t =>
    match t.directory.write? path content.toUTF8 with
    | some directory => carryOut rest { t with directory }
    | none => { t with failure := some failure }

/-- Ends with the outcome's failure, unless something failed before. -/
def finish (failure : Option String) (t : Trace) : Trace :=
  let failure := t.failure <|> failure
  { t with
    failure
    notes := (failure.map failureText).toList ++ t.notes }

def exitCode (t : Trace) : Nat := CommandLine.exitCode t.failure

def output (t : Trace) : String := String.join t.printed.reverse

def errorOutput (t : Trace) : String := String.join t.notes.reverse

end Trace

/-- Carries out a command line in a directory. -/
def runIn (d : Directory) (args : List String) (entropy : Entropy) : Except UsageError Trace :=
  match parse args with
  | .error e => .error e
  | .ok invocation =>
    let outcome := perform invocation d.read? entropy
    .ok ((Trace.carryOut outcome.effects (.start d)).finish outcome.failure)

end FactorMachine.CommandLine
