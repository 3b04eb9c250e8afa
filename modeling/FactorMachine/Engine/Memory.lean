import FactorMachine.Chunk.Record

/-!
# FactorMachine — program memory

The cells of a program, and whether one of them was written since that was last asked. The
number of cells never changes.
-/

namespace FactorMachine

structure Memory where
  cells : Array Chunk
  /-- Whether a cell was written since the last `takeDirty`. -/
  dirty : Bool
  deriving DecidableEq, Repr

namespace Memory

def ofProgram (program : List Chunk) : Memory := ⟨program.toArray, false⟩

def size (m : Memory) : Nat := m.cells.size

def read? (m : Memory) (address : Nat) : Option Chunk := m.cells[address]?

/-- Writes a cell, if there is one at `address`. -/
def write? (m : Memory) (address : Nat) (chunk : Chunk) : Option Memory :=
  if address < m.size then some ⟨m.cells.setIfInBounds address chunk, true⟩ else none

/-- Asks whether a cell was written since this was last asked. -/
def takeDirty (m : Memory) : Bool × Memory := (m.dirty, { m with dirty := false })

end Memory

end FactorMachine
