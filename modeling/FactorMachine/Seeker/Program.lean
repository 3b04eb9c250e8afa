import FactorMachine.Assembly.Assembler
import FactorMachine.Config.Basic

/-!
# FactorMachine — the goal-seeking program

A goal-seeker prints attempts at a target that it is not told, and learns from one word of
feedback each time whether it was hit. It rewrites itself on the way:

```text
0            push of the attempt      rewritten after every feedback
1 … slots    no operation             the modification slots
             show the attempt, read the feedback
success      drop the frame, clear the failure count, read the next target,
             write it to address 0 and begin again
failure      drop the frame, count the failure, perhaps print the stuck signal,
             choose the next attempt, rewrite one slot and address 0, begin again
unwind       routine: drop everything down to the marker
guard        halt
cells        data: previous attempt, failure count, last slot, last kind
```

Only the two top words of the operand stack are within reach of an instruction, so what has
to last is kept in the data cells. An iteration begins with a marker and a zero for each slot
on the stack: the zeros are there for slots that add, and the marker tells `unwind` where to
stop.
-/

namespace FactorMachine.Seeker

open Statement

-- ---------------------------------------------------------------------------
-- Labels
-- ---------------------------------------------------------------------------

def mainLabel : String := "main"
def successLabel : String := "success"
def failureLabel : String := "failure"
def nextAttemptLabel : String := "failure.next_attempt"
def acceptLabel : String := "failure.accept"
def skipLabel (i : Nat) : String := s!"failure.slot_skip.{i}"
def slotChosenLabel : String := "failure.slot_chosen"
def notAddLabel : String := "failure.not_add"
def buildPushLabel : String := "failure.build_push"
def writeSlotLabel : String := "failure.write_slot"
def unwindLabel : String := "unwind"
def unwindDropLabel : String := "unwind.drop"
def guardLabel : String := "guard"
def previousCell : String := "cell.previous_attempt"
def failuresCell : String := "cell.failure_count"
def lastSlotCell : String := "cell.last_slot"
def lastKindCell : String := "cell.last_kind"

/-! ## Kinds

What a slot can be rewritten to, as numbers that the program draws. -/

def pushKind : Nat := 0
def addKind : Nat := 1
def nopKind : Nat := 2
def kindCount : Nat := 3

/-! ## Fragments

Each comment shows the top of the operand stack before and after. -/

/-- A cell's value on the stack: `… → … value`. -/
def loadCell (cell : String) : List Statement :=
  .pushLabel cell :: ops [.peekChunk, .factorize, .drop, .swap, .drop]

/-- The top of the stack into a cell: `… value → …`. -/
def storeCell (cell : String) : List Statement :=
  [.push dataExponent, .op .swap, .push 1, .op .buildChunk, .pushLabel cell, .op .pokeChunk]

/-- The chunk of an opcode: `… → … chunk`. -/
def buildOpcode (op : Opcode) : List Statement :=
  [.push opcodeExponent, .push op.index, .push 1, .op .buildChunk]

/-- The chunk of a push: `… operand → … chunk`. -/
def buildPush : List Statement :=
  [.push operandExponent, .op .swap, .push opcodeExponent, .push Opcode.push.index, .push 2,
   .op .buildChunk]

/-- Makes address zero push the top of the stack: `… attempt → …`. -/
def pokeMain : List Statement := buildPush ++ [.pushLabel mainLabel, .op .pokeChunk]

/-- Begins the next iteration: `… → … marker 0 … 0`. -/
def restart (c : SeekerConfig) : List Statement :=
  .push c.frameMarker :: List.replicate c.slotCount (.push 0) ++ jumpTo mainLabel

-- ---------------------------------------------------------------------------
-- The parts of the program
-- ---------------------------------------------------------------------------

/-- Shows the attempt and reads the feedback. -/
def mainPart (c : SeekerConfig) (p : ProtocolConfig) (target : Nat) : List Statement :=
  [.label mainLabel, .push target] ++ List.replicate c.slotCount (.op .nop) ++
  ops [.dup, .print, .input] ++ [.push p.successFeedback, .op .compareEq] ++
  branchIfFalse failureLabel

/-- Begins again with the next target: `marker … attempt → marker 0 … 0`. -/
def successPart (c : SeekerConfig) : List Statement :=
  .label successLabel :: callTo unwindLabel ++ [.op .drop, .push 0] ++
  storeCell failuresCell ++ ops [.input, .dup] ++ storeCell previousCell ++ pokeMain ++
  [.pushSlot .fallback] ++ storeCell lastSlotCell ++ [.push nopKind] ++
  storeCell lastKindCell ++ restart c

/-- Counts the failure and says when there have been enough of them. -/
def countFailure (c : SeekerConfig) (p : ProtocolConfig) : List Statement :=
  loadCell failuresCell ++ [.push 1, .op .add, .op .dup] ++ storeCell failuresCell ++
  [.push c.maxFailuresBeforeStuck, .op .compareEq] ++ branchIfFalse nextAttemptLabel ++
  [.push p.stuckSignal, .op .print]

/-- Moves the attempt on, and once more if it is the previous one: `… attempt → … next`. -/
def chooseAttempt (c : SeekerConfig) : List Statement :=
  [.label nextAttemptLabel, .push c.randomOffsetBound, .op .random,
   .push c.attemptIncrement, .op .add, .op .add, .push c.attemptModulus, .op .mod,
   .op .dup] ++
  loadCell previousCell ++ [.op .compareEq] ++ branchIfFalse acceptLabel ++
  [.push 1, .op .add, .push c.attemptModulus, .op .mod, .label acceptLabel]

/-- Tries the `i`-th of the selected slots: `… drawn → … drawn`, or on to the label for a
chosen slot with `… address`. -/
def trySlot (i : Nat) : List Statement :=
  [.op .dup, .push i, .op .compareEq] ++ branchIfFalse (skipLabel i) ++
  [.op .drop, .pushSlot (.selected i)] ++ jumpTo slotChosenLabel ++ [.label (skipLabel i)]

/-- Draws one of the selected slots: `… → … address`. -/
def chooseSlot (selectedCount : Nat) : List Statement :=
  [.push selectedCount, .op .random] ++ (List.range (selectedCount - 1)).flatMap trySlot ++
  [.op .drop, .pushSlot (.selected (selectedCount - 1)), .label slotChosenLabel, .op .dup] ++
  storeCell lastSlotCell

/-- Draws what to write there: `… → … chunk`. -/
def chooseKind : List Statement :=
  [.push kindCount, .op .random, .op .dup] ++ storeCell lastKindCell ++
  [.op .dup, .push addKind, .op .compareEq] ++ branchIfFalse notAddLabel ++ [.op .drop] ++
  buildOpcode .add ++ jumpTo writeSlotLabel ++
  [.label notAddLabel, .push nopKind, .op .compareEq] ++ branchIfFalse buildPushLabel ++
  buildOpcode .nop ++ jumpTo writeSlotLabel ++ [.label buildPushLabel, .push 0] ++ buildPush

/-- Begins again with another attempt: `marker … attempt → marker 0 … 0`. -/
def failurePart (c : SeekerConfig) (p : ProtocolConfig) (selectedCount : Nat) :
    List Statement :=
  .label failureLabel :: callTo unwindLabel ++ countFailure c p ++ chooseAttempt c ++
  chooseSlot selectedCount ++ chooseKind ++
  [.label writeSlotLabel, .op .swap, .op .pokeChunk, .op .dup] ++ storeCell previousCell ++
  pokeMain ++ restart c

/-- Drops everything below the top down to the marker: `marker … top → top`. -/
def unwindPart (c : SeekerConfig) : List Statement :=
  [.label unwindLabel, .op .swap, .op .dup, .push c.frameMarker, .op .compareEq] ++
  branchIfFalse unwindDropLabel ++ [.op .drop, .op .ret, .label unwindDropLabel, .op .drop] ++
  jumpTo unwindLabel

/-- The data cells as they are at the start. -/
def cellPart (target : Nat) : List Statement :=
  [.label previousCell, .data target, .label failuresCell, .data 0, .label lastSlotCell,
   .data 0, .label lastKindCell, .data nopKind]

/-- The whole program for a first attempt at `target`. -/
def statements (c : SeekerConfig) (p : ProtocolConfig) (target selectedCount : Nat) :
    List Statement :=
  mainPart c p target ++ successPart c ++ failurePart c p selectedCount ++ unwindPart c ++
  [.label guardLabel, .op .halt] ++ cellPart target

end FactorMachine.Seeker
