import FactorMachine.CommandLine.Arguments
import FactorMachine.CommandLine.Documents
import FactorMachine.Config.Reading
import FactorMachine.Listing
import FactorMachine.Random.ChaCha

/-!
# FactorMachine — what a command does

A command is a function from the contents of files to an `Outcome`: effects that are to be
carried out in order, and at the end perhaps a failure. Nothing is read or written here.
-/

namespace FactorMachine.CommandLine

/-- Something that a command does to its surroundings. -/
inductive Effect where
  /-- A text on the standard output. -/
  | print (text : String)
  /-- The summary of a training on the standard output. -/
  | printSummary (summary : TrainingSummary)
  /-- A line on the standard error. -/
  | note (line : String)
  /-- A file's new content. If it cannot be written, the command ends with `failure`. -/
  | write (path content failure : String)
  deriving DecidableEq, Repr

structure Outcome where
  effects : List Effect
  /-- The message with which the command fails. -/
  failure : Option String
  deriving DecidableEq, Repr

namespace Outcome

def success (effects : List Effect) : Outcome := ⟨effects, none⟩

def failed (message : String) : Outcome := ⟨[], some message⟩

end Outcome

/-- Seeds for what is not seeded by the configuration. -/
structure Entropy where
  engine : Nat
  controller : Nat
  deriving DecidableEq, Repr

/-- The contents of the files that a command may read. -/
abbrev Files := String → Option ByteArray

/-- Prints or saves the listing of a goal-seeker. -/
def generate (config : Config) (output : Option String) (target failureStreak : Nat) :
    Outcome :=
  match SeekerBuilder.start config.seeker config.protocol with
  | .error e => .failed e.message
  | .ok builder =>
    match (SeekerBuilder.build target failureStreak).run builder with
    | .error e _ => .failed e.message
    | .ok seeker _ =>
      let listing := renderListing seeker.program
      match output with
      | none => .success [.print listing]
      | some path =>
        let size := seeker.program.length
        .success [
          .write path listing s!"cannot access listing {path}",
          .print s!"wrote {size} chunks to {path}\n"]

/-- What a run that ended with `result` has to say, beside what the program printed. -/
def runVerdict (result : StepResult) (maxSteps : Nat) : List Effect × Option String :=
  match result.fault with
  | some fault => ([], some s!"program faulted at {result.ip}: {fault.message}")
  | none =>
    if result.needsInput then ([.note s!"stopped waiting for input at {result.ip}"], none)
    else if result.halted then ([], none)
    else ([.note s!"step budget of {maxSteps} exhausted"], none)

/-- Runs a listing with the given inputs. -/
def run (config : Config) (engineSeed : Nat) (content : Option ByteArray)
    (inputs : List Word) (maxSteps : Nat) : Outcome :=
  match loadListing content with
  | .error e => .failed e.message
  | .ok program =>
    let engine := Engine.start program [] config.engine.maxStackDepth
      config.engine.historyLimit (ChaCha.ofSeed engineSeed)
    match drive engine inputs maxSteps with
    | .error refusal => .failed refusal.message
    | .ok (result, engine, _) =>
      let printed := engine.outputLog.map fun line => Effect.print (line ++ "\n")
      let (notes, failure) := runVerdict result maxSteps
      ⟨printed ++ notes, failure⟩

/-- Prints a listing with the meaning of each chunk. -/
def disassembleFile (content : Option ByteArray) : Outcome :=
  match loadListing content with
  | .error e => .failed e.message
  | .ok program => .success [.print (renderListing program)]

/-- Trains a goal-seeker, and saves a report if there is a place for it. -/
def train (config : Config) (seeds : Entropy) (cycles : Nat) (report : Option String) :
    Outcome :=
  match Session.start config (ChaCha.ofSeed seeds.engine) (ChaCha.ofSeed seeds.controller) with
  | .error e => .failed e.message
  | .ok session =>
    match (Session.train cycles).run session with
    | .error e _ => .failed e.message
    | .ok summary session =>
      let saved := match report with
        | none => []
        | some path =>
          [.write path session.report.toJson.print s!"writing report to {path}"]
      .success (.printSummary summary :: saved)

/-- The configuration of an invocation, or the message that there is none. -/
def loadConfig (config : Option String) (files : Files) : Except String Config :=
  match config with
  | none => .ok {}
  | some path =>
    match Config.load (files path) with
    | .ok c => .ok c
    | .error e => .error s!"loading {path}\n\nCaused by:\n    {e.message}"

/-- Carries out a command on the given files. -/
def perform (i : Invocation) (files : Files) (entropy : Entropy) : Outcome :=
  match loadConfig i.config files with
  | .error message => .failed message
  | .ok config =>
    let seedsOf (c : Config) : Entropy :=
      ⟨c.engine.seed.getD entropy.engine, c.controller.seed.getD entropy.controller⟩
    match i.command with
    | .generate output target failureStreak => generate config output target failureStreak
    | .run file inputs maxSteps =>
      run config (seedsOf config).engine (files file) inputs maxSteps
    | .disassemble file => disassembleFile (files file)
    | .train cycles seed report =>
      let config := match seed with
        | some seed => config.withSeed seed
        | none => config
      train config (seedsOf config) cycles report

-- ---------------------------------------------------------------------------
-- Endings
-- ---------------------------------------------------------------------------

/-- The exit code of a command that did or did not fail. -/
def exitCode (failure : Option String) : Nat := if failure.isSome then 1 else 0

/-- The exit code where the arguments make no command. -/
def usageExitCode : UsageError → Nat
  | .help => 0
  | .misuse _ => 2

/-- What is written about a failure. -/
def failureText (message : String) : String := s!"Error: {message}\n"

def usageText : String :=
  "Usage: factor-machine [--config <FILE>] <COMMAND>\n\n" ++
  "Commands:\n" ++
  "  generate  Assemble the goal-seeker and print or save its listing\n" ++
  "            [--output <FILE>] [--initial-target <N>] [--failure-streak <N>]\n" ++
  "  run       Run a listing, answering INPUT from --input values in order\n" ++
  "            <FILE> [--input <N>]... [--max-steps <N>]\n" ++
  "  disasm    Print a listing with each chunk decoded\n" ++
  "            <FILE>\n" ++
  "  train     Train the goal-seeker against the difficulty controller\n" ++
  "            [--cycles <N>] [--seed <N>] [--report <FILE>]\n"

end FactorMachine.CommandLine
