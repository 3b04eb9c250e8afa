import FactorMachine.Chunk.Checksum

/-!
# FactorMachine — writing and reading chunks

`encode` writes a record as the product of its payload factors, `encodeChecksummed` adds a
checksum, and `decode` reads a record from a chunk of either form. Among all chunks with one
meaning the plain encoding is the least.

Reading is lenient: beside an opcode every other factor is ignored, and of several operands
the one with the lowest index counts.
-/

namespace FactorMachine

-- ---------------------------------------------------------------------------
-- Reading
-- ---------------------------------------------------------------------------

/-- The meaning of a payload without an opcode. -/
def interpretData (chunk : Chunk) (logical : List Factor) : Except ChunkError Record :=
  let otherwise : Except ChunkError Record :=
    if logical.any (·.exponent == operandExponent) then .error (.noOpcode chunk)
    else .error (.unrecognizedChunk chunk)
  match logical with
  | [f] =>
    if f.isFoldedPush then .ok (.push Opcode.push.index)
    else if f.exponent = dataExponent then .ok (.data f.index)
    else otherwise
  | [f, g] =>
    if f.exponent = positionExponent ∧ g.exponent = valueExponent then
      .ok (.pair f.index g.index)
    else if f.exponent = valueExponent ∧ g.exponent = positionExponent then
      .ok (.pair g.index f.index)
    else otherwise
  | _ => otherwise

/-- The meaning of the only opcode factor in a payload. -/
def interpretOpcode (chunk : Chunk) (logical : List Factor) (opcode : Factor) :
    Except ChunkError Record :=
  match Opcode.ofIndex? opcode.index with
  | none => .error (.unrecognizedChunk chunk)
  | some .push =>
    match logical.find? (·.exponent == operandExponent) with
    | some operand => .ok (.push operand.index)
    | none => .error (.unrecognizedChunk chunk)
  | some op => .ok (.ofOpcode op)

/-- The meaning of a payload; the chunk it came from is named in failures. -/
def interpret (chunk : Chunk) (logical : List Factor) : Except ChunkError Record :=
  if logical.isEmpty then .ok .degenerate
  else match logical.filter (·.exponent == opcodeExponent) with
    | [] => interpretData chunk logical
    | [opcode] => interpretOpcode chunk logical opcode
    | _ => .error (.ambiguousOpcode chunk)

/-- The record that a chunk stands for. -/
def decode (chunk : Chunk) : Except ChunkError Record :=
  match analyze chunk with
  | .ok analysis => interpret chunk analysis.logical
  | .error e => .error e

/-- One line of readable text for any chunk. -/
def disassemble (chunk : Chunk) : String :=
  match decode chunk with
  | .ok record => record.text
  | .error e => s!"?? ({e.message})"

-- ---------------------------------------------------------------------------
-- Writing
-- ---------------------------------------------------------------------------

/-- The plain encoding of a record. -/
def encode (record : Record) : Except ChunkError Chunk := do
  encodeFactors (← record.factors)

/-- Adds a factor to a list with ascending indices, joining it to one of equal index. -/
def mergeFactor (f : Factor) : List Factor → List Factor
  | [] => [f]
  | g :: rest =>
    if f.index < g.index then f :: g :: rest
    else if f.index = g.index then ⟨g.index, g.exponent + f.exponent⟩ :: rest
    else g :: mergeFactor f rest

/-- The given factors with ascending indices, equal ones joined. -/
def mergeFactors (factors : List Factor) : List Factor :=
  factors.foldl (fun merged f => mergeFactor f merged) []

/-- The encoding of a record with a checksum of the given correction, refused where the
checksum would change what is read back. -/
def encodeChecksummed (record : Record) (correction : Nat) : Except ChunkError Chunk := do
  let payload := mergeFactors (← record.factors)
  let index ← checksumIndex payload
  if exponentBound ≤ checksumExponent + correction then throw .overflow
  let chunk ← encodeFactors (payload ++ [⟨index, checksumExponent + correction⟩])
  if (decode chunk).toOption = some record then pure chunk
  else throw (.checksumCollision record)

def encodeOpcode (op : Opcode) : Except ChunkError Chunk := encode (.ofOpcode op)

def encodePush (operand : Nat) : Except ChunkError Chunk := encode (.push operand)

def encodeData (value : Nat) : Except ChunkError Chunk := encode (.data value)

end FactorMachine
