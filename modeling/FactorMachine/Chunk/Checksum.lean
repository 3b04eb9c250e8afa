import FactorMachine.Prime.Factorization
import FactorMachine.Chunk.Factor
import FactorMachine.Sorting

/-!
# FactorMachine — checksums

A checksum is one more factor, on the prime whose index is the exclusive or of
`index * exponent` over the payload factors. Its exponent is `6` plus a correction, and a
correction greater than zero is itself part of the payload.

`analyze` separates the two again: `raw` is the factorization as it stands, `logical` the
payload that remains once a matching checksum is removed. A factor that could be a checksum
but does not match changes nothing.
-/

namespace FactorMachine

/-- One more term of the exclusive or; a product that is no index has no checksum. -/
def checksumStep (acc : Nat) (f : Factor) : Except ChunkError Nat :=
  if f.index * f.exponent < indexBound then .ok (acc ^^^ f.index * f.exponent)
  else .error .overflow

/-- The index of the checksum prime of the given payload. -/
def checksumIndex (factors : List Factor) : Except ChunkError Nat :=
  factors.foldlM checksumStep 0

inductive ChecksumStatus where
  | absent
  | valid (correction : Nat)
  | mismatch
  deriving DecidableEq, Repr

structure Analysis where
  raw : List Factor
  logical : List Factor
  checksum : ChecksumStatus
  deriving DecidableEq, Repr

/-- The factorization of a positive chunk in index form. -/
def indexedFactors (chunk : Chunk) : Except PrimeError (List Factor) := do
  (← factorize chunk).mapM fun (p, e) => do return ⟨← indexOf p, e⟩

/-- Separates payload and checksum of a factorization. -/
def Analysis.ofFactors (raw : List Factor) : Analysis :=
  match raw.find? (·.mayBeChecksum) with
  | none => ⟨raw, raw, .absent⟩
  | some candidate =>
    let payload := raw.erase candidate
    match checksumIndex payload with
    | .error _ => ⟨raw, raw, .mismatch⟩
    | .ok index =>
      if index = candidate.index then
        let correction := candidate.exponent - checksumExponent
        let logical :=
          if correction = 0 then payload
          else insertSorted (fun f g => f.index < g.index) ⟨index, correction⟩ payload
        ⟨raw, logical, .valid correction⟩
      else ⟨raw, raw, .mismatch⟩

/-- Reads the factors of a chunk. One with a factor beyond the numbered primes matches no
layout. -/
def analyze (chunk : Chunk) : Except ChunkError Analysis :=
  if chunk = 0 then .error .corrupt
  else match indexedFactors chunk with
    | .ok raw => .ok (.ofFactors raw)
    | .error .limitExceeded => .error (.unrecognizedChunk chunk)
    | .error e => .error (.prime e)

end FactorMachine
