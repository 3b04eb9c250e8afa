import FactorMachine.Engine.Execution

/-!
# FactorMachine — running an engine

* `Engine.step` executes one instruction;
* `Engine.resume` supplies the word that the program waits for and executes the next one;
* `Engine.runUntilBlocked` steps until the engine waits, stops or has used up its steps;
* `drive` goes on across the waits, with words from an `InputSource`.

A call that the phase does not allow is refused. A fault of the program is no refusal: it
shows in the result.
-/

namespace FactorMachine

/-- Whoever answers an engine that waits for input: it is told what was printed last, and it
may have no answer. -/
class InputSource (ι : Type) where
  nextInput : (lastOutput : Option String) → ι → Option Word × ι

/-- Answers with the given words in order, whatever was printed. -/
instance : InputSource (List Word) where
  nextInput _
    | [] => (none, [])
    | v :: rest => (some v, rest)

namespace Engine

variable {σ : Type} [RandomSource σ]

/-- Executes one instruction in an engine that is free to run. -/
def advance (e : Engine σ) : StepResult × Engine σ :=
  match executeNext.run e with
  | .ok output e => e.snapshot output
  | .error fault e => (e.fail fault).snapshot none

/-- Executes exactly one instruction. -/
def step (e : Engine σ) : Except Refusal (StepResult × Engine σ) :=
  match e.phase with
  | .awaitingInput => .error .awaitingInput
  | .halted | .errored => .error (.stopped e.phase)
  | .ready | .running => .ok { e with phase := .running }.advance

/-- Supplies the word that the program waits for, then executes the next instruction. -/
def resume (e : Engine σ) (v : Word) : Except Refusal (StepResult × Engine σ) :=
  if e.phase = .awaitingInput then
    let e := { e.record (.inputSupplied v) with phase := .running }
    match (Operation.push v).run e with
    | .ok _ e => .ok e.advance
    | .error fault e => .ok ((e.fail fault).snapshot none)
  else .error (.notAwaitingInput e.phase)

/-- Steps at most `maxSteps` times, until the engine is blocked. Gives the result of the last
step, or `last` if none was made. -/
def stepsFrom : (maxSteps : Nat) → (last : Option StepResult) → Engine σ →
    Except Refusal (Option StepResult × Engine σ)
  | 0, last, e => .ok (last, e)
  | maxSteps + 1, last, e =>
    if e.phase.canStep then
      match e.step with
      | .ok (result, e) =>
        if result.blocked then .ok (some result, e) else stepsFrom maxSteps (some result) e
      | .error refusal => .error refusal
    else .ok (last, e)

/-- Steps until the engine waits, stops or has made `maxSteps` steps, and shows the last
result; without a step, the state as it is. -/
def runUntilBlocked (e : Engine σ) (maxSteps : Nat) :
    Except Refusal (StepResult × Engine σ) :=
  match e.stepsFrom maxSteps none with
  | .ok (some result, e) => .ok (result, e)
  | .ok (none, e) => .ok (e.snapshot none)
  | .error refusal => .error refusal

end Engine

variable {σ ι : Type} [RandomSource σ] [InputSource ι]

/-- Makes at most `maxSteps` calls, answering from the source where the program waits, and
shows the last result, or `last` if there is none. -/
def driveFrom : (maxSteps : Nat) → (last : StepResult) → Engine σ → ι →
    Except Refusal (StepResult × Engine σ × ι)
  | 0, last, e, source => .ok (last, e, source)
  | maxSteps + 1, last, e, source =>
    match e.phase with
    | .ready | .running =>
      match e.step with
      | .ok (result, e) => driveFrom maxSteps result e source
      | .error refusal => .error refusal
    | .awaitingInput =>
      match InputSource.nextInput e.lastOutput source with
      | (none, source) => .ok (last, e, source)
      | (some v, source) =>
        match e.resume v with
        | .ok (result, e) => driveFrom maxSteps result e source
        | .error refusal => .error refusal
    | .halted | .errored => .ok (last, e, source)

/-- Runs an engine for at most `maxSteps` calls. It stops early when the engine stops or the
source has no answer. -/
def drive (e : Engine σ) (source : ι) (maxSteps : Nat) :
    Except Refusal (StepResult × Engine σ × ι) :=
  let (first, e) := e.snapshot none
  driveFrom maxSteps first e source

end FactorMachine
