import FactorMachine.Chunk.Record
import FactorMachine.Engine.Word
import FactorMachine.Text.Numeral

/-!
# FactorMachine — command line arguments

Arguments are read from left to right, and the first one that is wrong or asks for help
decides. An option is written `--name value` or `--name=value`; after `--` everything is
positional. Only an option that may be repeated stands more than once, and a value that is an
argument of its own does not start with a hyphen, save that negative numbers are taken where
they make sense. A lone hyphen is a value like any other.

The option `--config` stands before the name of the command or after it; the later one
counts. A value of its own right before that name is looked at last, after the arguments of
the command.
-/

namespace FactorMachine.CommandLine

/-- Why arguments make no command. -/
inductive UsageError where
  /-- The arguments ask how they are to be used. -/
  | help
  | misuse (problem : String)
  deriving DecidableEq, Repr

inductive Command where
  | generate (output : Option String) (target failureStreak : Nat)
  | run (file : String) (inputs : List Word) (maxSteps : Nat)
  | disassemble (file : String)
  | train (cycles : Nat) (seed : Option Nat) (report : Option String)
  deriving DecidableEq, Repr

/-- A command and the file that holds its configuration. -/
structure Invocation where
  config : Option String
  command : Command
  deriving DecidableEq, Repr

-- ---------------------------------------------------------------------------
-- Arguments one by one
-- ---------------------------------------------------------------------------

/-- A hyphen followed by something. -/
def startsWithHyphen (arg : String) : Bool :=
  match arg.toList with
  | '-' :: _ :: _ => true
  | _ => false

def isNegativeNumber (arg : String) : Bool :=
  match arg.toList with
  | '-' :: rest => (Text.digits? rest).isSome
  | _ => false

/-- What a single argument is. -/
inductive Token where
  | terminator
  | positional (value : String)
  /-- An option, with its value if that is written in the same argument. -/
  | long (name : String) (value : Option String)
  /-- Options of one letter each. -/
  | short (first : Char)
  deriving DecidableEq, Repr

def Token.ofString (arg : String) : Token :=
  match arg.toList with
  | ['-', '-'] => .terminator
  | '-' :: '-' :: rest =>
    match rest.span (· != '=') with
    | (name, '=' :: value) => .long (String.ofList name) (some (String.ofList value))
    | (name, _) => .long (String.ofList name) none
  | '-' :: first :: _ => .short first
  | _ => .positional arg

/-- What an option comes to that a command does not have: help takes no value. -/
def unknownLong (name : String) (value : Option String) : UsageError :=
  if name = "help" ∧ value = none then .help else .misuse s!"unexpected argument --{name}"

/-- What options of one letter come to: the first one decides, and only help has a letter. -/
def unknownShort (first : Char) : UsageError :=
  if first = 'h' then .help else .misuse s!"unexpected argument -{first}"

-- ---------------------------------------------------------------------------
-- Values
-- ---------------------------------------------------------------------------

/-- A value as the name of a file, which is not empty. -/
def readPath (value : String) : Except UsageError String :=
  if value.isEmpty then .error (.misuse "a file name is empty") else .ok value

def readNatural (value : String) : Except UsageError Nat :=
  match Text.natural? indexBound value.toList with
  | some n => .ok n
  | none => .error (.misuse s!"{value} is not a natural number")

def readWord (value : String) : Except UsageError Word :=
  match Text.integer? Word.bound value.toList with
  | some v => .ok v
  | none => .error (.misuse s!"{value} is not an integer")

/-- Reads the value of a setting that is made at most once. -/
def once {α : Type} (read : String → Except UsageError α) (current : Option α)
    (value : String) : Except UsageError (Option α) :=
  match current with
  | some _ => .error (.misuse s!"{value} is one value too many")
  | none => some <$> read value

-- ---------------------------------------------------------------------------
-- Commands
-- ---------------------------------------------------------------------------

/-- What the arguments of a command have set so far. -/
structure Settings where
  config : Option String := none
  file : Option String := none
  output : Option String := none
  report : Option String := none
  target : Option Nat := none
  failureStreak : Option Nat := none
  maxSteps : Option Nat := none
  cycles : Option Nat := none
  seed : Option Nat := none
  /-- The inputs, latest first. -/
  inputs : List Word := []
  deriving DecidableEq, Repr

structure OptionSpec where
  name : String
  /-- Whether a negative number can be its value. -/
  takesNegative : Bool
  /-- Adds a value to the settings. -/
  store : String → Settings → Except UsageError Settings

/-- Whether an argument can be the value of the option before it. -/
def OptionSpec.accepts (o : OptionSpec) (value : String) : Bool :=
  !startsWithHyphen value || (o.takesNegative && isNegativeNumber value)

inductive CommandName where
  | generate
  | run
  | disassemble
  | train
  deriving DecidableEq, Repr

namespace CommandName

def ofString? : String → Option CommandName
  | "generate" => some .generate
  | "run" => some .run
  | "disasm" => some .disassemble
  | "train" => some .train
  | _ => none

/-- The options of a command, the global one included. -/
def options (name : CommandName) : List OptionSpec :=
  ⟨"config", false, fun v s => return { s with config := ← once readPath s.config v }⟩ ::
  match name with
  | .generate => [
    ⟨"output", false, fun v s => return { s with output := ← once readPath s.output v }⟩,
    ⟨"initial-target", false, fun v s =>
      return { s with target := ← once readNatural s.target v }⟩,
    ⟨"failure-streak", false, fun v s =>
      return { s with failureStreak := ← once readNatural s.failureStreak v }⟩]
  | .run => [
    ⟨"input", true, fun v s => return { s with inputs := (← readWord v) :: s.inputs }⟩,
    ⟨"max-steps", false, fun v s =>
      return { s with maxSteps := ← once readNatural s.maxSteps v }⟩]
  | .disassemble => []
  | .train => [
    ⟨"cycles", false, fun v s => return { s with cycles := ← once readNatural s.cycles v }⟩,
    ⟨"seed", false, fun v s => return { s with seed := ← once readNatural s.seed v }⟩,
    ⟨"report", false, fun v s => return { s with report := ← once readPath s.report v }⟩]

/-- Adds a positional to the settings. Only a file to read is one. -/
def storePositional (name : CommandName) (s : Settings) (value : String) :
    Except UsageError Settings :=
  match name with
  | .run | .disassemble => return { s with file := ← once readPath s.file value }
  | .generate | .train => .error (.misuse s!"unexpected argument {value}")

/-- Reads the arguments of a command into its settings. -/
def readArguments (name : CommandName) (s : Settings) :
    List String → Except UsageError Settings
  | [] => .ok s
  | arg :: rest =>
    match Token.ofString arg with
    | .terminator => rest.foldlM name.storePositional s
    | .positional value => do readArguments name (← name.storePositional s value) rest
    | .short first => .error (unknownShort first)
    | .long option value =>
      match name.options.find? (·.name == option) with
      | none => .error (unknownLong option value)
      | some spec =>
        match value, rest with
        | some value, rest => do readArguments name (← spec.store value s) rest
        | none, value :: rest =>
          if spec.accepts value then do readArguments name (← spec.store value s) rest
          else .error (.misuse s!"option {option} needs a value")
        | none, [] => .error (.misuse s!"option {option} needs a value")

/-- The command that settings make. -/
def command (name : CommandName) (s : Settings) : Except UsageError Command :=
  match name, s.file with
  | .generate, _ => .ok (.generate s.output (s.target.getD 0) (s.failureStreak.getD 0))
  | .run, some file => .ok (.run file s.inputs.reverse (s.maxSteps.getD 100000))
  | .disassemble, some file => .ok (.disassemble file)
  | .train, _ => .ok (.train (s.cycles.getD 100) s.seed s.report)
  | _, none => .error (.misuse "a file name is missing")

end CommandName

-- ---------------------------------------------------------------------------
-- The command line
-- ---------------------------------------------------------------------------

/-- The arguments up to the name of a command, and what follows it. -/
structure Front where
  config : Option String
  /-- The value of `--config` right before the name, which was not looked at yet. -/
  unread : Option String
  name : String
  rest : List String
  deriving DecidableEq, Repr

/-- The file of the configuration, after a value that was not looked at yet. -/
def settle (config unread : Option String) : Except UsageError (Option String) :=
  match unread with
  | some value => once readPath config value
  | none => .ok config

/-- Reads the arguments up to the name of a command. -/
def readFront (config unread : Option String) : List String → Except UsageError Front
  | [] => .error (.misuse "a command is missing")
  | arg :: rest =>
    match Token.ofString arg with
    | .terminator => .error (.misuse "a command is missing")
    | .positional name => .ok ⟨config, unread, name, rest⟩
    | .short first => do
      let _ ← settle config unread
      throw (unknownShort first)
    | .long option value => do
      let config ← settle config unread
      if option ≠ "config" then throw (unknownLong option value)
      match value, rest with
      | some value, rest => readFront (← once readPath config value) none rest
      | none, value :: rest =>
        if startsWithHyphen value then throw (.misuse "option config needs a value")
        else readFront config (some value) rest
      | none, [] => throw (.misuse "option config needs a value")

/-- What a request for help comes to, which may name one command. -/
def helpOn : List String → UsageError
  | [] => .help
  | [name] =>
    if name = "help" ∨ (CommandName.ofString? name).isSome then .help
    else .misuse s!"unknown command {name}"
  | _ => .misuse "there are too many arguments"

/-- The command that arguments stand for. -/
def parse (args : List String) : Except UsageError Invocation := do
  let front ← readFront none none args
  if front.name = "help" then throw (helpOn front.rest)
  match CommandName.ofString? front.name with
  | none => throw (.misuse s!"unknown command {front.name}")
  | some name =>
    let settings ← name.readArguments {} front.rest
    let outer ← settle front.config front.unread
    return ⟨settings.config <|> outer, ← name.command settings⟩

end FactorMachine.CommandLine
