import FactorMachine.Prime.Catalogue
import FactorMachine.Chunk.Record

/-!
# FactorMachine — prime factors and their roles

A chunk is a product of prime powers, and the exponent of each prime says what the index of
that prime stands for:

| exponent | role                                         |
|----------|----------------------------------------------|
| 4        | opcode                                       |
| 5        | operand of a push                            |
| 3        | a single datum                               |
| 2, 1     | position and value of a pair                 |
| 6 and up | checksum, with a correction on top of the 6  |

The push of opcode number zero carries opcode and operand on one prime, whose exponent is
then 9.

`encodeFactors` is the bounded product of a list of factors.
-/

namespace FactorMachine

/-- Why a chunk cannot be read or written. -/
inductive ChunkError where
  | corrupt
  | ambiguousOpcode (chunk : Chunk)
  | noOpcode (chunk : Chunk)
  | unrecognizedChunk (chunk : Chunk)
  | overflow
  | checksumCollision (record : Record)
  | pushWithoutOperand
  | operandNotAllowed
  | equalPair
  | prime (error : PrimeError)
  deriving DecidableEq, Repr

def ChunkError.message : ChunkError → String
  | .corrupt => "chunk 0 is corrupt"
  | .ambiguousOpcode chunk => s!"chunk {chunk} carries more than one opcode factor"
  | .noOpcode chunk => s!"chunk {chunk} carries an operand but no opcode"
  | .unrecognizedChunk chunk => s!"chunk {chunk} matches no instruction or data layout"
  | .overflow => "chunk value does not fit in 128 bits"
  | .checksumCollision record =>
    s!"checksum prime collides with the payload of `{record.text}`"
  | .pushWithoutOperand => "cannot encode record: PUSH needs an operand"
  | .operandNotAllowed => "cannot encode record: only PUSH takes an operand"
  | .equalPair => "cannot encode record: pair position and value must differ"
  | .prime error => error.message

/-- A prime power in index form. -/
structure Factor where
  index : Nat
  exponent : Nat
  deriving DecidableEq, Repr

-- ---------------------------------------------------------------------------
-- Roles
-- ---------------------------------------------------------------------------

def opcodeExponent : Nat := 4
def operandExponent : Nat := 5
def dataExponent : Nat := 3
def positionExponent : Nat := 2
def valueExponent : Nat := 1

/-- The least exponent that makes a factor a checksum. -/
def checksumExponent : Nat := 6

/-- Opcode and operand of the push of opcode number zero, folded into one prime. -/
def Factor.isFoldedPush (f : Factor) : Bool :=
  f.index == Opcode.push.index && f.exponent == opcodeExponent + operandExponent

/-- Whether a factor can be a checksum. -/
def Factor.mayBeChecksum (f : Factor) : Bool :=
  checksumExponent ≤ f.exponent && !f.isFoldedPush

/-- The payload factors of a record, opcode or position first. -/
def Record.factors : Record → Except ChunkError (List Factor)
  | .instruction .push (some operand) =>
    .ok [⟨Opcode.push.index, opcodeExponent⟩, ⟨operand, operandExponent⟩]
  | .instruction .push none => .error .pushWithoutOperand
  | .instruction _ (some _) => .error .operandNotAllowed
  | .instruction op none => .ok [⟨op.index, opcodeExponent⟩]
  | .data value => .ok [⟨value, dataExponent⟩]
  | .pair position value =>
    if position = value then .error .equalPair
    else .ok [⟨position, positionExponent⟩, ⟨value, valueExponent⟩]
  | .degenerate => .ok []

-- ---------------------------------------------------------------------------
-- The bounded product
-- ---------------------------------------------------------------------------

/-- The power of a prime, if it is a chunk. An exponent of 128 or more is refused without
computing the power. -/
def boundedPower (p e : Nat) : Option Chunk :=
  if e < 128 ∧ p.pow e < chunkBound then some (p.pow e) else none

/-- The product so far times one more factor. A factor of exponent zero is not looked at. -/
def mulFactor (product : Chunk) (f : Factor) : Except ChunkError Chunk :=
  if f.exponent = 0 then .ok product
  else match primeAt f.index with
    | .error e => .error (.prime e)
    | .ok p =>
      match boundedPower p f.exponent with
      | none => .error .overflow
      | some power =>
        if product * power < chunkBound then .ok (product * power) else .error .overflow

/-- The product of the given factors, repeated indices included. -/
def encodeFactors (factors : List Factor) : Except ChunkError Chunk :=
  factors.foldlM mulFactor 1

end FactorMachine
