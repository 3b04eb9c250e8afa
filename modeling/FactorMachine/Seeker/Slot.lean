import FactorMachine.Assembly.Error
import FactorMachine.Sorting
import FactorMachine.Window

/-!
# FactorMachine — modification slots

A slot is a cell that a running program may rewrite, with a short record of how the attempts
after a rewrite went. A `SlotBank` holds the slots of one goal-seeker from program to
program.

For each program the bank chooses the least successful slots, more of them the longer the
streak of failures is, and moves each to the next free address of a rotating pointer. A slot
that moves onto another's address trades places with it, so no two slots share one.
-/

namespace FactorMachine

/-- How many of the latest outcomes a slot is scored by. -/
def scoredOutcomes : Nat := 3

structure Slot where
  address : Nat
  /-- The chunk that was last written there. -/
  instruction : Chunk
  outcomes : Window Bool
  deriving DecidableEq, Repr

namespace Slot

def start (address : Nat) (instruction : Chunk) (historyLimit : Nat) : Slot :=
  ⟨address, instruction, .empty historyLimit⟩

def record (s : Slot) (success : Bool) : Slot :=
  { s with outcomes := s.outcomes.push success }

/-- Successes among the latest outcomes. -/
def score (s : Slot) : Nat :=
  (s.outcomes.toList.reverse.take scoredOutcomes).count true

end Slot

-- ---------------------------------------------------------------------------
-- The rotating pointer
-- ---------------------------------------------------------------------------

/-- The first address after `pointer`, going round at most `counter` places, that is neither
zero nor locked. -/
def eligibleAfter (programLength : Nat) (locked : List Nat) :
    (counter pointer : Nat) → Option Nat
  | 0, _ => none
  | counter + 1, pointer =>
    let candidate := (pointer + 1) % programLength
    if candidate ≠ 0 ∧ !locked.contains candidate then some candidate
    else eligibleAfter programLength locked counter candidate

/-- The next address after `pointer`, going round once, that is neither zero nor locked. -/
def nextTarget (pointer programLength : Nat) (locked : List Nat) : Except AssemblyError Nat :=
  match eligibleAfter programLength locked programLength pointer with
  | some target => .ok target
  | none => .error (.invalidTarget (.allProtected programLength))

-- ---------------------------------------------------------------------------
-- The bank
-- ---------------------------------------------------------------------------

structure SlotBank where
  slots : List Slot
  pointer : Nat
  /-- The addresses that were handed out lately. -/
  modifications : Window Nat
  deriving DecidableEq, Repr

namespace SlotBank

def start (addresses : List Nat) (instruction : Chunk)
    (historyLimit modificationLimit : Nat) : SlotBank :=
  { slots := addresses.map fun address => .start address instruction historyLimit
    pointer := addresses.head?.getD 0
    modifications := .empty modificationLimit }

/-- The score of the slot at a place of the bank. -/
def scoreAt (b : SlotBank) (i : Nat) : Nat :=
  match b.slots[i]? with
  | some slot => slot.score
  | none => 0

/-- How many slots a streak of failures lets a program rewrite. -/
def selectedCount (b : SlotBank) (failureStreak : Nat) : Nat :=
  min b.slots.length (1 + failureStreak / 2)

/-- The places of the slots to rewrite, least successful first. -/
def slotsToUpdate (b : SlotBank) (failureStreak : Nat) : List Nat :=
  (stableSort (fun i j => b.scoreAt i < b.scoreAt j) (List.range b.slots.length)).take
    (b.selectedCount failureStreak)

/-- Moves the slot at place `i` to `target`, trading places with a slot that is there. -/
def moveSlot (slots : List Slot) (i target : Nat) : List Slot :=
  match slots[i]? with
  | none => slots
  | some slot =>
    let vacated := match slots.findIdx? (·.address == target) with
      | some j => slots.modify j fun other => { other with address := slot.address }
      | none => slots
    vacated.modify i fun moved => { moved with address := target }

/-- Moves the slot at place `i` to the next free address. -/
def place (i programLength : Nat) (locked : List Nat) : EStateM AssemblyError SlotBank Nat := do
  let b ← get
  match nextTarget b.pointer programLength locked with
  | .error e => throw e
  | .ok target =>
    set ({ slots := moveSlot b.slots i target
           pointer := target
           modifications := b.modifications.push target } : SlotBank)
    pure target

/-- Chooses the slots for a program and moves each to the next free address. -/
def plan (failureStreak programLength : Nat) (locked : List Nat) :
    EStateM AssemblyError SlotBank (List Nat) := do
  let chosen := (← get).slotsToUpdate failureStreak
  chosen.mapM fun i => place i programLength locked

/-- Records how the attempt after a rewrite at `address` went, and the chunk that is there
now. Tells whether a slot is at that address. -/
def recordOutcome (b : SlotBank) (address : Nat) (instruction : Chunk) (success : Bool) :
    Bool × SlotBank :=
  match b.slots.findIdx? (·.address == address) with
  | none => (false, b)
  | some i =>
    (true, { b with
      slots := b.slots.modify i fun slot => { slot.record success with instruction } })

end SlotBank

end FactorMachine
