import FactorMachine.Engine.Fault
import FactorMachine.Engine.History
import FactorMachine.Engine.Memory
import FactorMachine.Random.Source

/-!
# FactorMachine — the state of an engine

An engine runs a program that may rewrite itself. Its state is the program memory, an
operand stack and a call stack of bounded depth, the instruction pointer, the phase, what it
has printed, the source of its random numbers and its history.

After each call an engine shows a `StepResult`. The program is shown only if it was written
since the last result that was made.
-/

namespace FactorMachine

structure Engine (σ : Type) where
  memory : Memory
  /-- The operand stack, top first. -/
  stack : List Word
  /-- The addresses to return to, latest first. -/
  callStack : List Nat
  /-- The address of the next instruction. -/
  ip : Nat
  phase : Phase
  /-- The fault that stopped the program. -/
  fault : Option Fault
  /-- The printed words, latest first. -/
  printed : List Word
  random : σ
  /-- The limit of either stack. -/
  maxStackDepth : Nat
  history : History
  deriving DecidableEq, Repr

/-- What a call to an engine shows. -/
structure StepResult where
  ip : Nat
  /-- The operand stack, top first. -/
  stack : List Word
  /-- The word that was printed. -/
  output : Option Word
  halted : Bool
  fault : Option Fault
  needsInput : Bool
  /-- The program, if it was written since the last result. -/
  program : Option (Array Chunk)
  deriving DecidableEq, Repr

/-- Whether nothing can be run before somebody intervenes. -/
def StepResult.blocked (r : StepResult) : Bool := r.needsInput || r.halted || r.fault.isSome

namespace Engine

variable {σ : Type}

/-- An engine that is ready to run a program from the given operand stack, top first. -/
def start (program : List Chunk) (stack : List Word) (maxStackDepth historyLimit : Nat)
    (random : σ) : Engine σ :=
  { memory := .ofProgram program
    stack
    callStack := []
    ip := 0
    phase := .ready
    fault := none
    printed := []
    random
    maxStackDepth
    history := .empty historyLimit }

/-- The same engine, ready to run another program. Its random numbers and its history go
on. -/
def reinitialize (e : Engine σ) (program : List Chunk) (stack : List Word) : Engine σ :=
  { e with
    memory := .ofProgram program
    stack
    callStack := []
    ip := 0
    phase := .ready
    fault := none
    printed := [] }

/-- The cells of the program as they are now. -/
def program (e : Engine σ) : Array Chunk := e.memory.cells

/-- The printed texts, oldest first. -/
def outputLog (e : Engine σ) : List String := e.printed.reverse.map toString

/-- The text that was printed last. -/
def lastOutput (e : Engine σ) : Option String := e.printed.head?.map toString

def needsInput (e : Engine σ) : Bool := e.phase == .awaitingInput

def record (e : Engine σ) (event : Event) : Engine σ :=
  { e with history := e.history.record event }

/-- Shows the state, and the program if it was written since the last result. -/
def snapshot (e : Engine σ) (output : Option Word) : StepResult × Engine σ :=
  let (written, memory) := e.memory.takeDirty
  ({ ip := e.ip
     stack := e.stack
     output
     halted := e.phase == .halted
     fault := e.fault
     needsInput := e.needsInput
     program := if written then some memory.cells else none },
   { e with memory })

/-- Ends the program. -/
def halt (e : Engine σ) : Engine σ := { e with phase := .halted }.record .halted

/-- Stops the program because of a fault. -/
def fail (e : Engine σ) (fault : Fault) : Engine σ :=
  { e with phase := .errored, fault := some fault }.record .fault

end Engine

end FactorMachine
