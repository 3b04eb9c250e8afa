import FactorMachine.Chunk.Codec
import FactorMachine.Engine.Word

/-!
# FactorMachine — phases, faults and refusals

An engine is in one of five phases. A program that goes wrong leaves its engine `errored`
with a `Fault`; a call that the current phase does not allow is answered by a `Refusal` and
changes nothing.
-/

namespace FactorMachine

inductive Phase where
  | ready
  | running
  | awaitingInput
  | halted
  | errored
  deriving DecidableEq, Repr

namespace Phase

def name : Phase → String
  | ready => "Ready"
  | running => "Running"
  | awaitingInput => "AwaitingInput"
  | halted => "Halted"
  | errored => "Errored"

/-- Whether an engine in this phase takes a step. -/
def canStep : Phase → Bool
  | ready | running => true
  | awaitingInput | halted | errored => false

end Phase

/-- What is wrong with a program or its data. -/
inductive Fault where
  | stackUnderflow (address : Nat) (op : Opcode)
  | stackOverflow (limit : Nat)
  | invalidAddress (value : Word)
  | emptyCallStack
  | divisionByZero
  | arithmeticOverflow (op : Opcode)
  | invalidOperand (op : Opcode) (value : Word)
  | notAnInstruction (address : Nat) (record : Record)
  | undecodable (address : Nat) (error : ChunkError)
  | codec (error : ChunkError)
  | prime (error : PrimeError)
  deriving DecidableEq, Repr

def Fault.message : Fault → String
  | .stackUnderflow address op => s!"stack underflow at address {address} ({op.name})"
  | .stackOverflow limit => s!"stack depth limit {limit} exceeded"
  | .invalidAddress value => s!"invalid address {value}"
  | .emptyCallStack => "RETURN with an empty call stack"
  | .divisionByZero => "MOD by zero"
  | .arithmeticOverflow op => s!"arithmetic overflow in {op.name}"
  | .invalidOperand op value => s!"invalid operand {value} for {op.name}"
  | .notAnInstruction address record =>
    s!"address {address} holds `{record.text}`, not an instruction"
  | .undecodable address error => s!"cannot decode chunk at address {address}: {error.message}"
  | .codec error => error.message
  | .prime error => error.message

/-- Why a call is not allowed. -/
inductive Refusal where
  | awaitingInput
  | notAwaitingInput (phase : Phase)
  | stopped (phase : Phase)
  deriving DecidableEq, Repr

def Refusal.message : Refusal → String
  | .awaitingInput => "engine is waiting for input; call resume"
  | .notAwaitingInput phase => s!"resume called while {phase.name}"
  | .stopped phase => s!"engine already stopped ({phase.name})"

end FactorMachine
