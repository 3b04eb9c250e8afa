import FactorMachine.Engine.Word
import FactorMachine.Opcode
import FactorMachine.Tally
import FactorMachine.Window

/-!
# FactorMachine — execution history

An engine records an event for each thing that can be observed of it. The history keeps the
last few events and counts all of them; nothing in it is ever read by an execution.
-/

namespace FactorMachine

inductive Event where
  | executed (address : Nat) (op : Opcode)
  | output (value : Word)
  | poke (address : Nat)
  | inputRequested
  | inputSupplied (value : Word)
  | halted
  | fault
  deriving DecidableEq, Repr

/-- The opcode of an executed instruction. -/
def Event.opcode? : Event → Option Opcode
  | .executed _ op => some op
  | _ => none

structure History where
  /-- The events that are still kept. -/
  window : Window Event
  /-- How many instructions were executed. -/
  executed : Nat
  faults : Nat
  /-- How often each opcode was executed. -/
  opcodes : Tally Opcode
  /-- How often each address was written. -/
  pokes : Tally Nat
  deriving DecidableEq, Repr

namespace History

/-- A history that will keep at most `limit` events, and at least one. -/
def empty (limit : Nat) : History := ⟨.empty limit, 0, 0, [], []⟩

/-- Counts an event. -/
def count (h : History) : Event → History
  | .executed _ op => { h with executed := h.executed + 1, opcodes := h.opcodes.bump op }
  | .poke address => { h with pokes := h.pokes.bump address }
  | .fault => { h with faults := h.faults + 1 }
  | _ => h

def record (h : History) (event : Event) : History :=
  { h.count event with window := h.window.push event }

/-- The events that are kept, oldest first. -/
def events (h : History) : List Event := h.window.toList

/-- The opcodes of the last `n` executed instructions that are kept, oldest first. -/
def recentOpcodes (h : History) (n : Nat) : List Opcode :=
  ((h.events.reverse.filterMap Event.opcode?).take n).reverse

end History

end FactorMachine
