import FactorMachine.Config.Validation
import FactorMachine.Engine.Report
import FactorMachine.Seeker.Builder
import FactorMachine.Trainer.Controller

/-!
# FactorMachine — training sessions

A session holds an engine, the goal-seeker that runs in it, the builder of that goal-seeker,
and the controller that judges it. A `cycle` runs the engine to its next wait for input and
answers it; `train` makes a number of cycles and rebuilds the program where the engine
stopped, as often as the configuration allows.
-/

namespace FactorMachine

inductive SessionError where
  | config (error : ConfigError)
  | assembly (error : AssemblyError)
  | engine (refusal : Refusal)
  | fault (fault : Fault)
  | halted
  | stepBudgetExhausted (budget : Nat)
  | tooManyRestarts (restarts : Nat)
  deriving DecidableEq, Repr

namespace SessionError

def message : SessionError → String
  | .config error => error.message
  | .assembly error => error.message
  | .engine refusal => refusal.message
  | .fault cause => s!"engine faulted: {cause.message}"
  | .halted => "engine halted"
  | .stepBudgetExhausted budget => s!"no input request within {budget} steps"
  | .tooManyRestarts restarts => s!"giving up after {restarts} restarts"

/-- Whether a fresh program may help. -/
def isRecoverable : SessionError → Bool
  | .fault _ | .halted | .stepBudgetExhausted _ => true
  | .config _ | .assembly _ | .engine _ | .tooManyRestarts _ => false

end SessionError

/-- What happened in one cycle. -/
structure CycleReport where
  /-- The word that the program was given. -/
  input : Word
  lastOutput : Option String
  /-- Whether an attempt was a hit; nothing if the word was a target. -/
  success : Option Bool
  /-- Whether the program printed the stuck signal. -/
  stuckSignalled : Bool
  controller : ControllerSnapshot
  deriving DecidableEq, Repr

structure TrainingSummary where
  cycles : Nat
  monitor : Monitor
  restarts : Nat
  controller : ControllerSnapshot
  deriving DecidableEq, Repr

structure Session (σ : Type) where
  config : Config
  engine : Engine σ
  controller : Controller σ
  builder : SeekerBuilder
  seeker : GoalSeeker
  failureStreak : Nat
  restarts : Nat
  /-- How many of the printed words were looked at. -/
  outputsSeen : Nat
  deriving DecidableEq, Repr

namespace Session

variable {σ : Type} [RandomSource σ]

/-- A session whose engine and controller draw from the given sources. -/
def start (config : Config) (engineRandom controllerRandom : σ) :
    Except SessionError (Session σ) :=
  match config.validate with
  | .error e => .error (.config e)
  | .ok () =>
    let controller := Controller.start config.controller config.protocol controllerRandom
    match SeekerBuilder.start config.seeker config.protocol with
    | .error e => .error (.assembly e)
    | .ok builder =>
      match (SeekerBuilder.build controller.target 0).run builder with
      | .error e _ => .error (.assembly e)
      | .ok seeker builder =>
        .ok {
          config
          engine := .start seeker.program seeker.initialStack config.engine.maxStackDepth
            config.engine.historyLimit engineRandom
          controller
          builder
          seeker
          failureStreak := 0
          restarts := 0
          outputsSeen := 0 }

/-- The report on everything that the engine has executed. -/
def report (s : Session σ) : Report := .ofHistory s.engine.history

/-- An engine that should wait for input but does not. -/
def stopOf? (result : StepResult) (budget : Nat) : Option SessionError :=
  match result.fault with
  | some fault => some (.fault fault)
  | none =>
    if result.halted then some .halted
    else if result.needsInput then none
    else some (.stepBudgetExhausted budget)

/-- Credits the outcome of an attempt to the slot that was rewritten before it. -/
def recordSlotOutcome (s : Session σ) (success : Bool) : Session σ :=
  match readCell s.engine.program s.seeker.cells.lastSlot with
  | none => s
  | some address =>
    match s.engine.program[address]? with
    | none => s
    | some instruction =>
      if address = 0 then s
      else { s with builder := (s.builder.recordOutcome address instruction success).2 }

/-- A part of a session's work: it may fail, and what it did before stays. -/
abbrev Action (σ : Type) := EStateM SessionError (Session σ)

/-- Runs the engine to its next wait for input. -/
def runToInput : Action σ Unit := do
  let s ← get
  let budget := s.config.session.maxStepsPerCycle
  match s.engine.runUntilBlocked budget with
  | .error refusal => throw (.engine refusal)
  | .ok (result, engine) =>
    set { s with engine }
    match stopOf? result budget with
    | some stop => throw stop
    | none => pure ()

/-- Tells whether the stuck signal is among the words printed since the last look. -/
def lookForStuckSignal : Action σ Bool := do
  let s ← get
  let printed := s.engine.printed
  set { s with outputsSeen := printed.length }
  let signal : Word := s.config.protocol.stuckSignal
  pure ((printed.take (printed.length - s.outputsSeen)).contains signal)

/-- Lets the controller answer, and keeps account of the outcome if it judged an attempt. -/
def answer : Action σ (Word × Option Bool) := do
  let s ← get
  let (input, controller) := s.controller.respond s.engine.lastOutput
  let success :=
    if s.controller.phase = .awaitingAttemptResult then
      some (decide (input = s.config.protocol.successFeedback))
    else none
  let s := { s with controller }
  match success with
  | none => set s
  | some success =>
    let s := s.recordSlotOutcome success
    set { s with failureStreak := if success then 0 else s.failureStreak + 1 }
  pure (input, success)

/-- Gives the engine the word that it waits for. -/
def resume (input : Word) : Action σ Unit := do
  let s ← get
  match s.engine.resume input with
  | .error refusal => throw (.engine refusal)
  | .ok (result, engine) =>
    set { s with engine }
    match result.fault with
    | some fault => throw (.fault fault)
    | none => pure ()

/-- Runs to the next wait for input, answers it and resumes. -/
def cycle : Action σ CycleReport := do
  runToInput
  let stuckSignalled ← lookForStuckSignal
  let lastOutput := (← get).engine.lastOutput
  let (input, success) ← answer
  resume input
  let controller := (← get).controller.snapshot
  return { input, lastOutput, success, stuckSignalled, controller }

/-- Loads a fresh program for the current target and streak of failures. -/
def reinitialize : Action σ Unit := do
  let s ← get
  match (SeekerBuilder.build s.controller.target s.failureStreak).run s.builder with
  | .error e builder =>
    set { s with builder }
    throw (.assembly e)
  | .ok seeker builder =>
    set { s with
      builder
      seeker
      engine := s.engine.reinitialize seeker.program seeker.initialStack
      controller := s.controller.expectAttempt
      outputsSeen := 0 }

/-- Restarts after a stop of the engine, if restarts are left. -/
def restart : Action σ Unit := do
  let s ← get
  if s.config.session.maxRestarts ≤ s.restarts then throw (.tooManyRestarts s.restarts)
  set { s with restarts := s.restarts + 1 }
  reinitialize

/-- Makes cycles until `remaining` of them are complete, restarting after the engine's stops.
The counter bounds cycles and restarts together. -/
def trainFrom : (counter remaining : Nat) → Action σ Unit
  | 0, _ => pure ()
  | _, 0 => pure ()
  | counter + 1, remaining + 1 => fun s =>
    match cycle.run s with
    | .ok _ s => trainFrom counter remaining s
    | .error e s =>
      if e.isRecoverable then
        match restart.run s with
        | .ok () s => trainFrom counter (remaining + 1) s
        | .error e s => .error e s
      else .error e s

def summary (s : Session σ) (cycles : Nat) : TrainingSummary :=
  { cycles
    monitor := s.controller.monitor
    restarts := s.restarts
    controller := s.controller.snapshot }

/-- Makes a number of cycles. Besides them there is at most one try for each restart that is
left, and the one that finds none left. -/
def train (cycles : Nat) : Action σ TrainingSummary := do
  let s ← get
  trainFrom (cycles + (s.config.session.maxRestarts - s.restarts) + 1) cycles
  return (← get).summary cycles

end Session

end FactorMachine
