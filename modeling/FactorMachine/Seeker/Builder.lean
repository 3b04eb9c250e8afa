import FactorMachine.Engine.Word
import FactorMachine.Seeker.Program
import FactorMachine.Seeker.Slot

/-!
# FactorMachine — building goal-seekers

A `SeekerBuilder` assembles one goal-seeker after another. Between them it keeps the slots
with what is known about their success, and each program gets the slots that the bank
chooses for it.
-/

namespace FactorMachine

/-- The addresses of a goal-seeker's data cells. -/
structure CellLayout where
  previousAttempt : Nat
  failureCount : Nat
  lastSlot : Nat
  lastKind : Nat
  deriving DecidableEq, Repr

/-- The value of a data cell in a program that may have been rewritten. -/
def readCell (program : Array Chunk) (address : Nat) : Option Nat :=
  match program[address]? with
  | none => none
  | some chunk =>
    match decode chunk with
    | .ok (.data value) => some value
    | _ => none

/-- A program with what those who run it need to know about it. -/
structure GoalSeeker where
  program : List Chunk
  labels : List (String × Nat)
  placeholders : List Nat
  /-- The addresses of the slots that it may rewrite. -/
  selectedSlots : List Nat
  cells : CellLayout
  frameMarker : Nat
  slotCount : Nat
  deriving DecidableEq, Repr

namespace GoalSeeker

/-- The operand stack that the program starts from, top first: the marker at the bottom and a
zero for each slot. -/
def initialStack (s : GoalSeeker) : List Word :=
  List.replicate s.slotCount 0 ++ [(s.frameMarker : Word)]

/-- The addresses of all slots. -/
def slotAddresses (s : GoalSeeker) : List Nat := List.range' 1 s.slotCount

end GoalSeeker

structure SeekerBuilder where
  config : SeekerConfig
  protocol : ProtocolConfig
  bank : SlotBank
  deriving DecidableEq, Repr

namespace SeekerBuilder

/-- What stands in the way of any program with this configuration. -/
def layoutProblem? (config : SeekerConfig) : Option LayoutProblem :=
  if config.slotCount = 0 then some .noSlots
  else if config.attemptModulus < 2 ∨ config.randomOffsetBound = 0 then some .degenerateDraws
  else if config.frameMarker < config.attemptModulus then some .reachableMarker
  else none

/-- A builder whose slots are the addresses from one on. -/
def start (config : SeekerConfig) (protocol : ProtocolConfig) :
    Except AssemblyError SeekerBuilder :=
  match layoutProblem? config with
  | some problem => .error (.invalidLayout problem)
  | none =>
    match encodeOpcode .nop with
    | .error e => .error (.chunk e)
    | .ok nop =>
      let bank := SlotBank.start (List.range' 1 config.slotCount) nop
        config.slotHistoryLimit config.modificationHistoryLimit
      .ok ⟨config, protocol, bank⟩

/-- The addresses of a program that are no slots. -/
def lockedAddresses (b : SeekerBuilder) (programLength : Nat) : List Nat :=
  (List.range programLength).filter fun address =>
    !(1 ≤ address && address ≤ b.config.slotCount)

/-- The data cells of an assembled program. -/
def cellLayout (labels : List (String × Nat)) : Except AssemblyError CellLayout := do
  return {
    previousAttempt := ← resolveLabel labels Seeker.previousCell
    failureCount := ← resolveLabel labels Seeker.failuresCell
    lastSlot := ← resolveLabel labels Seeker.lastSlotCell
    lastKind := ← resolveLabel labels Seeker.lastKindCell }

/-- The next program: it starts by attempting `target`, and the longer the streak of failures
before it, the more slots it may rewrite. A failure after the slots were chosen leaves them
where they were moved. -/
def build (target failureStreak : Nat) : EStateM AssemblyError SeekerBuilder GoalSeeker := do
  let b ← get
  let selectedCount := b.bank.selectedCount failureStreak
  let statements := Seeker.statements b.config b.protocol target selectedCount
  match (Assembler.performAll statements).run .empty with
  | .error e _ => throw e
  | .ok _ assembler =>
    let locked := b.lockedAddresses assembler.here
    match (SlotBank.plan failureStreak assembler.here locked).run b.bank with
    | .error e bank =>
      set { b with bank }
      throw e
    | .ok selected bank =>
      set { b with bank }
      match assembler.finish selected with
      | .error e => throw e
      | .ok assembled =>
        match cellLayout assembled.labels with
        | .error e => throw e
        | .ok cells =>
          return {
            program := assembled.program
            labels := assembled.labels
            placeholders := assembled.placeholders
            selectedSlots := selected
            cells
            frameMarker := b.config.frameMarker
            slotCount := b.config.slotCount }

/-- Records how the attempt after a rewrite at `address` went. -/
def recordOutcome (b : SeekerBuilder) (address : Nat) (instruction : Chunk)
    (success : Bool) : Bool × SeekerBuilder :=
  let (found, bank) := b.bank.recordOutcome address instruction success
  (found, { b with bank })

end SeekerBuilder

end FactorMachine
