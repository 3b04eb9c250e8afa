import FactorMachine.Assembly.Assembler

/-!
# FactorMachine — patching an assembled program

Changes to the cells of a finished program. They are made in place: a change may fail, and what
it wrote before it failed would stay. Each of them therefore looks at everything first and writes
at the end, so that it either is carried out as a whole or leaves the program as it is.
-/

namespace FactorMachine

/-- A cell's new content. -/
structure Patch where
  address : Nat
  chunk : Chunk
  deriving DecidableEq, Repr

/-- Whether a patch cannot be written: its address is outside the program, or locked. -/
def Patch.isRefused (program : Array Chunk) (locked : List Nat) (p : Patch) : Bool :=
  program.size ≤ p.address || locked.contains p.address

/-- Patches in the order in which they are written. -/
def orderedPatches (patches : List Patch) : List Patch :=
  stableSort (fun p q => p.address < q.address) patches

/-- The opcode of the instruction at an address, if there is one. -/
def opcodeAt (program : Array Chunk) (address : Nat) : Except AssemblyError (Option Opcode) :=
  match program[address]? with
  | none => .ok none
  | some chunk =>
    match decode chunk with
    | .ok (.instruction op _) => .ok (some op)
    | .ok _ => .ok none
    | .error e => .error (.chunk e)

/-- Whether an opcode takes an address to go on at. -/
def Opcode.isTransfer : Opcode → Bool
  | .jump | .jumpIfZero | .call => true
  | _ => false

/-- A change of a program in place: it may fail, and what it wrote before stays. -/
abbrev Patching := EStateM AssemblyError (Array Chunk)

namespace Patching

/-- Writes a cell. -/
def write (address : Nat) (chunk : Chunk) : Patching Unit :=
  modify (·.setIfInBounds address chunk)

/-- Writes patches one after the other. -/
def writeAll : List Patch → Patching Unit
  | [] => pure ()
  | p :: rest => do
    write p.address p.chunk
    writeAll rest

/-- Writes patches in ascending order of address; of several at one address the last one
stays. Nothing is written if one of them cannot be. Returns how many there were. -/
def apply (patches : List Patch) (locked : List Nat) : Patching Nat := do
  let program ← get
  match (orderedPatches patches).find? (·.isRefused program locked) with
  | some bad => throw (.invalidTarget (.unpatchable bad.address))
  | none =>
    writeAll (orderedPatches patches)
    pure (orderedPatches patches).length

/-- Gives the push at `address` another operand. -/
def retargetPush (address operand : Nat) : Patching Unit := do
  match opcodeAt (← get) address with
  | .error e => throw e
  | .ok (some .push) =>
    match encodePush operand with
    | .ok chunk => write address chunk
    | .error e => throw (.chunk e)
  | .ok _ => throw (.invalidTarget (.notPush address))

/-- Makes the transfer at address `transfer` go to `target`, by giving the push that feeds it
another operand. -/
def retargetJump (pushAddress transfer target : Nat) : Patching Unit := do
  let program ← get
  if program.size ≤ target || transfer ≤ pushAddress then
    throw (.invalidTarget (.badJump transfer target))
  else match opcodeAt program transfer with
    | .error e => throw e
    | .ok none => throw (.invalidTarget (.notTransfer transfer))
    | .ok (some op) =>
      if op.isTransfer then retargetPush pushAddress target
      else throw (.invalidTarget (.notTransfer transfer))

/-- What a change makes of a program that is given as a value. -/
def outcome {α : Type} (change : Patching α) (program : Array Chunk) :
    Except AssemblyError (Array Chunk) :=
  match change.run program with
  | .ok _ changed => .ok changed
  | .error e _ => .error e

end Patching

-- ---------------------------------------------------------------------------
-- The same changes of a program that is given as a value
-- ---------------------------------------------------------------------------

def applyPatches (program : Array Chunk) (patches : List Patch) (locked : List Nat) :
    Except AssemblyError (Array Chunk) :=
  (Patching.apply patches locked).outcome program

def retargetPush (program : Array Chunk) (address operand : Nat) :
    Except AssemblyError (Array Chunk) :=
  (Patching.retargetPush address operand).outcome program

def retargetJump (program : Array Chunk) (pushAddress transfer target : Nat) :
    Except AssemblyError (Array Chunk) :=
  (Patching.retargetJump pushAddress transfer target).outcome program

end FactorMachine
