import FactorMachine.Opcode

/-!
# FactorMachine — what a chunk means

A record is the meaning of a chunk: an instruction, a datum, a pair of data, or nothing at
all. `Record.text` is the form in which listings and messages show it.
-/

namespace FactorMachine

/-- A program cell: a number below `2 ^ 128` that is read through its factorization. -/
abbrev Chunk := Nat

/-- Chunks are below this number. -/
def chunkBound : Nat := Nat.pow 2 128

/-- Indices, addresses and counts are below this number. -/
def indexBound : Nat := Nat.pow 2 64

/-- Exponents and corrections are below this number. -/
def exponentBound : Nat := Nat.pow 2 32

inductive Record where
  /-- An opcode, and an operand if it carries one. -/
  | instruction (op : Opcode) (operand : Option Nat)
  | data (value : Nat)
  | pair (position value : Nat)
  /-- The meaning of a chunk without payload. -/
  | degenerate
  deriving DecidableEq, Repr

namespace Record

/-- An opcode without operand. -/
abbrev ofOpcode (op : Opcode) : Record := .instruction op none

abbrev push (operand : Nat) : Record := .instruction .push (some operand)

def text : Record → String
  | .instruction op (some operand) => s!"{op.name} {operand}"
  | .instruction op none => op.name
  | .data value => s!"DATA {value}"
  | .pair position value => s!"PAIR pos={position} val={value}"
  | .degenerate => "DEGENERATE"

end Record

end FactorMachine
