import FactorMachine.Chunk.Codec
import FactorMachine.Proofs.Chunk.Product

/-!
# FactorMachine — every record comes back from its chunk

A record is well formed if the opcode and its operand go together, the indices of a pair
differ, and every index has a prime. Those are the records that `encode` writes. The chunk is
below `2 ^ 124`, so it is a word as well, and `decode` reads the same record from it.

The proof follows the payload. Joining equal indices and sorting the rest does not change the
product, the result is what the factorization of the product lists, and since no payload
factor can be a checksum, it is interpreted as it stands.

## Results

* `number_mergeFactors`, `canonical_mergeFactors` — joined factors have the same product and
  are what a factorization lists.
* `Record.WellFormed.encode_decode` — a well-formed record comes back from its chunk.
* `encode_decode_or_refused`        — every other record is refused.
* `Record.WellFormed.decode_chunk`  — the chunk of a record is read as the record.
-/

namespace FactorMachine

-- ---------------------------------------------------------------------------
-- Joining factors
-- ---------------------------------------------------------------------------

theorem number_mergeFactor (f : Factor) (fs : List Factor) :
    factorsNumber (mergeFactor f fs) = f.number * factorsNumber fs := by
  induction fs with
  | nil => rfl
  | cons g rest ih =>
    unfold mergeFactor
    split
    · rfl
    · split
      · rename_i hEq
        -- two powers of one prime become one
        rw [factorsNumber_cons, factorsNumber_cons, ← mul_assoc]
        congr 1
        rw [Factor.number, Factor.number, Factor.number, hEq, ← pow_add, Nat.add_comm]
      · rw [factorsNumber_cons, factorsNumber_cons, ih]
        exact Nat.mul_left_comm _ _ _

/-- Joining a factor to a canonical list adds no index but its own. -/
theorem index_of_mem_mergeFactor {f g : Factor} {fs : List Factor}
    (hg : g ∈ mergeFactor f fs) : g.index = f.index ∨ ∃ h ∈ fs, g.index = h.index := by
  induction fs with
  | nil => exact .inl (by rw [List.mem_singleton.mp hg])
  | cons h rest ih =>
    unfold mergeFactor at hg
    split at hg
    · rcases List.mem_cons.mp hg with rfl | hg
      · exact .inl rfl
      · exact .inr ⟨g, hg, rfl⟩
    · split at hg
      · rcases List.mem_cons.mp hg with rfl | hg
        · exact .inr ⟨h, by simp, rfl⟩
        · exact .inr ⟨g, by simp [hg], rfl⟩
      · rcases List.mem_cons.mp hg with rfl | hg
        · exact .inr ⟨g, by simp, rfl⟩
        · rcases ih hg with hSame | ⟨h', hMem, hSame⟩
          · exact .inl hSame
          · exact .inr ⟨h', by simp [hMem], hSame⟩

theorem Canonical.mergeFactor {f : Factor} {fs : List Factor} (h : Canonical fs)
    (hPos : 0 < f.exponent) (hNumbered : f.index < primeCount) :
    Canonical (mergeFactor f fs) where
  ascending := by
    obtain ⟨hAscending, -, -⟩ := h
    induction fs with
    | nil => exact List.pairwise_singleton _ _
    | cons g rest ih =>
      obtain ⟨hHead, hRest⟩ := List.pairwise_cons.mp hAscending
      unfold FactorMachine.mergeFactor
      split
      · rename_i hLt
        refine List.pairwise_cons.mpr ⟨?_, hAscending⟩
        intro k hk
        rcases List.mem_cons.mp hk with rfl | hk
        · exact hLt
        · exact Nat.lt_trans hLt (hHead k hk)
      · split
        · exact List.pairwise_cons.mpr ⟨hHead, hRest⟩
        · refine List.pairwise_cons.mpr ⟨?_, ih hRest⟩
          intro k hk
          -- what follows is either the new factor, which was no smaller, or was there before
          rcases index_of_mem_mergeFactor hk with hSame | ⟨k', hMem, hSame⟩
          · omega
          · rw [hSame]
            exact hHead k' hMem
  pos := by
    obtain ⟨-, hAll, -⟩ := h
    induction fs with
    | nil => simpa [FactorMachine.mergeFactor] using hPos
    | cons g rest ih =>
      unfold FactorMachine.mergeFactor
      split
      · exact List.forall_mem_cons.mpr ⟨hPos, hAll⟩
      · obtain ⟨hHead, hRest⟩ := List.forall_mem_cons.mp hAll
        split
        · exact List.forall_mem_cons.mpr ⟨Nat.add_pos_left hHead _, hRest⟩
        · exact List.forall_mem_cons.mpr ⟨hHead, ih hRest⟩
  numbered := by
    intro k hk
    rcases index_of_mem_mergeFactor hk with hSame | ⟨k', hMem, hSame⟩
    · rw [hSame]
      exact hNumbered
    · rw [hSame]
      exact h.numbered k' hMem

theorem number_foldl_mergeFactor (fs merged : List Factor) :
    factorsNumber (fs.foldl (fun merged f => mergeFactor f merged) merged) =
      factorsNumber merged * factorsNumber fs := by
  induction fs generalizing merged with
  | nil => exact (Nat.mul_one _).symm
  | cons f fs ih =>
    rw [List.foldl_cons, ih, number_mergeFactor, factorsNumber_cons, Nat.mul_comm f.number,
      Nat.mul_assoc]

/-- Joining factors does not change their product. -/
theorem number_mergeFactors (fs : List Factor) :
    factorsNumber (mergeFactors fs) = factorsNumber fs := by
  rw [mergeFactors, number_foldl_mergeFactor, factorsNumber_nil, Nat.one_mul]

theorem canonical_foldl_mergeFactor {fs merged : List Factor} (h : Canonical merged)
    (hPos : ∀ f ∈ fs, 0 < f.exponent) (hNumbered : ∀ f ∈ fs, f.index < primeCount) :
    Canonical (fs.foldl (fun merged f => mergeFactor f merged) merged) := by
  induction fs generalizing merged with
  | nil => exact h
  | cons f fs ih =>
    obtain ⟨hPosHead, hPosRest⟩ := List.forall_mem_cons.mp hPos
    obtain ⟨hNumberedHead, hNumberedRest⟩ := List.forall_mem_cons.mp hNumbered
    exact ih (h.mergeFactor hPosHead hNumberedHead) hPosRest hNumberedRest

/-- Joined factors are what the factorization of their product lists. -/
theorem canonical_mergeFactors {fs : List Factor} (hPos : ∀ f ∈ fs, 0 < f.exponent)
    (hNumbered : ∀ f ∈ fs, f.index < primeCount) : Canonical (mergeFactors fs) :=
  canonical_foldl_mergeFactor ⟨.nil, by simp, by simp⟩ hPos hNumbered

-- ---------------------------------------------------------------------------
-- Reading a payload without checksum
-- ---------------------------------------------------------------------------

/-- Factors of which none can be a checksum are interpreted as they stand. -/
theorem decode_number {fs : List Factor} (h : Canonical fs)
    (hPlain : ∀ f ∈ fs, f.mayBeChecksum = false) :
    decode (factorsNumber fs) = interpret (factorsNumber fs) fs := by
  have hNone : fs.find? (·.mayBeChecksum) = none :=
    List.find?_eq_none.mpr fun f hf => by simp [hPlain f hf]
  rw [decode, analyze, if_neg (factorsNumber_pos fs).ne', indexedFactors_number h]
  simp only [Analysis.ofFactors, hNone]

-- ---------------------------------------------------------------------------
-- Well-formed records
-- ---------------------------------------------------------------------------

/-- An opcode with the operand that it takes, a datum, a pair of different indices or
nothing, and every index has a prime. -/
def Record.WellFormed : Record → Prop
  | .instruction .push operand => ∃ k, operand = some k ∧ k < primeCount
  | .instruction _ operand => operand = none
  | .data value => value < primeCount
  | .pair position value => position ≠ value ∧ position < primeCount ∧ value < primeCount
  | .degenerate => True

theorem Opcode.index_lt (op : Opcode) : op.index < primeCount := by
  cases op <;> decide

theorem Opcode.ofIndex?_index (op : Opcode) : Opcode.ofIndex? op.index = some op := by
  cases op <;> rfl

/-- The opcode is not the one that takes an operand. -/
theorem wellFormed_ofOpcode {op : Opcode} (hOp : op ≠ .push) :
    (Record.ofOpcode op).WellFormed := by
  cases op <;> first | rfl | exact absurd rfl hOp

theorem factors_ofOpcode {op : Opcode} (hOp : op ≠ .push) :
    (Record.ofOpcode op).factors = .ok [⟨op.index, opcodeExponent⟩] := by
  cases op <;> first | rfl | exact absurd rfl hOp

/-- The shapes of a well-formed record. -/
theorem Record.WellFormed.cases {r : Record} (h : r.WellFormed) :
    (∃ op, op ≠ .push ∧ r = .ofOpcode op) ∨ (∃ k, k < primeCount ∧ r = .push k) ∨
      (∃ v, v < primeCount ∧ r = .data v) ∨
      (∃ p v, p ≠ v ∧ p < primeCount ∧ v < primeCount ∧ r = .pair p v) ∨ r = .degenerate := by
  cases r with
  | instruction op operand =>
    by_cases hOp : op = .push
    · subst hOp
      obtain ⟨k, rfl, hk⟩ := h
      exact .inr (.inl ⟨k, hk, rfl⟩)
    · left
      refine ⟨op, hOp, ?_⟩
      cases op <;> first | exact absurd rfl hOp | exact congrArg _ h
  | data v => exact .inr (.inr (.inl ⟨v, h, rfl⟩))
  | pair p v => exact .inr (.inr (.inr (.inl ⟨p, v, h.1, h.2.1, h.2.2, rfl⟩)))
  | degenerate => exact .inr (.inr (.inr (.inr rfl)))

/-- A record with its payload: the factors are numbered, and joined they are interpreted as
the record. -/
structure Record.Payload (r : Record) (fs : List Factor) : Prop where
  factors : r.factors = .ok fs
  pos : ∀ f ∈ fs, 0 < f.exponent
  numbered : ∀ f ∈ fs, f.index < primeCount
  small : factorsNumber fs < 2 ^ 124
  plain : ∀ f ∈ mergeFactors fs, f.mayBeChecksum = false
  interpreted : ∀ chunk, interpret chunk (mergeFactors fs) = .ok r

/-- A power of a numbered prime is bounded through the length of the prime, 24 bits. -/
theorem number_lt {i : Nat} (hi : i < primeCount) (e : Nat) (he : 0 < e) :
    Factor.number ⟨i, e⟩ < 2 ^ (24 * e) := by
  have hPrime : primeOf i < 2 ^ 24 := Nat.lt_of_le_of_lt (primeOf_le hi) (by decide)
  show primeOf i ^ e < _
  rw [pow_mul]
  exact Nat.pow_lt_pow_left hPrime (by omega)

theorem primeOf_zero : primeOf 0 = 2 := Nat.nth_prime_zero_eq_two

theorem mayBeChecksum_of_lt {i e : Nat} (h : e < checksumExponent) :
    Factor.mayBeChecksum ⟨i, e⟩ = false := by
  unfold Factor.mayBeChecksum
  rw [decide_eq_false (by simpa using h), Bool.false_and]

/-- Two factors of different primes are put in order. -/
theorem mergeFactors_two {f g : Factor} (hNe : f.index ≠ g.index) :
    mergeFactors [f, g] = if g.index < f.index then [g, f] else [f, g] := by
  show mergeFactor g [f] = _
  simp [mergeFactor, hNe.symm]

theorem mergeFactors_push {k : Nat} (hPos : 0 < k) :
    mergeFactors [⟨Opcode.push.index, opcodeExponent⟩, ⟨k, operandExponent⟩] =
      [⟨0, 4⟩, ⟨k, 5⟩] := by
  exact (mergeFactors_two hPos.ne).trans (if_neg (Nat.not_lt_zero k))

theorem payload_ofOpcode {op : Opcode} (hOp : op ≠ .push) :
    (Record.ofOpcode op).Payload [⟨op.index, opcodeExponent⟩] where
  factors := factors_ofOpcode hOp
  pos := by simp [opcodeExponent]
  numbered := by simpa using op.index_lt
  small := by
    rw [factorsNumber_cons, factorsNumber_nil, Nat.mul_one]
    exact Nat.lt_trans (number_lt op.index_lt 4 (by omega)) (by decide)
  plain f hf := by
    rw [List.mem_singleton.mp hf]
    exact mayBeChecksum_of_lt (by decide)
  interpreted chunk := by
    show interpretOpcode chunk [⟨op.index, opcodeExponent⟩] ⟨op.index, opcodeExponent⟩ = _
    rw [interpretOpcode, op.ofIndex?_index]
    cases op <;> first | rfl | exact absurd rfl hOp

theorem payload_push {k : Nat} (hk : k < primeCount) :
    (Record.push k).Payload [⟨Opcode.push.index, opcodeExponent⟩, ⟨k, operandExponent⟩] where
  factors := rfl
  pos := by simp [opcodeExponent, operandExponent]
  numbered := by
    intro f hf
    rcases List.mem_pair.mp hf with rfl | rfl
    · exact Opcode.index_lt .push
    · exact hk
  small := by
    rw [factorsNumber_cons, factorsNumber_cons, factorsNumber_nil, Nat.mul_one]
    -- the opcode contributes four bits and the operand at most 120
    have hOpcode : Factor.number ⟨Opcode.push.index, opcodeExponent⟩ = 2 ^ 4 := by
      show primeOf 0 ^ 4 = 2 ^ 4
      rw [primeOf_zero]
    have hOperand := number_lt hk 5 (by omega)
    rw [hOpcode]
    show 2 ^ 4 * Factor.number ⟨k, 5⟩ < 2 ^ 124
    omega
  plain f hf := by
    -- the operand of index zero shares its prime with the opcode
    rcases Nat.eq_zero_or_pos k with rfl | hPos
    · rw [List.mem_singleton.mp hf]
      rfl
    · rw [mergeFactors_push hPos] at hf
      rcases List.mem_pair.mp hf with rfl | rfl <;> exact mayBeChecksum_of_lt (by decide)
  interpreted chunk := by
    rcases Nat.eq_zero_or_pos k with rfl | hPos
    · rfl
    · rw [mergeFactors_push hPos]
      rfl

theorem payload_data {v : Nat} (hv : v < primeCount) :
    (Record.data v).Payload [⟨v, dataExponent⟩] where
  factors := rfl
  pos := by simp [dataExponent]
  numbered := by simpa using hv
  small := by
    rw [factorsNumber_cons, factorsNumber_nil, Nat.mul_one]
    exact Nat.lt_trans (number_lt hv 3 (by omega)) (by decide)
  plain f hf := by
    rw [List.mem_singleton.mp hf]
    exact mayBeChecksum_of_lt (by decide)
  interpreted chunk := by
    have hFolded : Factor.isFoldedPush ⟨v, dataExponent⟩ = false := by
      simp [Factor.isFoldedPush, dataExponent, opcodeExponent, operandExponent]
    show interpretData chunk [⟨v, dataExponent⟩] = _
    simp [interpretData, hFolded]

theorem payload_pair {p v : Nat} (hNe : p ≠ v) (hp : p < primeCount) (hv : v < primeCount) :
    (Record.pair p v).Payload [⟨p, positionExponent⟩, ⟨v, valueExponent⟩] where
  factors := by rw [Record.factors, if_neg hNe]
  pos := by simp [positionExponent, valueExponent]
  numbered := by
    intro f hf
    rcases List.mem_pair.mp hf with rfl | rfl
    · exact hp
    · exact hv
  small := by
    rw [factorsNumber_cons, factorsNumber_cons, factorsNumber_nil, Nat.mul_one]
    have hPosition := number_lt hp 2 (by omega)
    have hValue := number_lt hv 1 (by omega)
    calc Factor.number ⟨p, 2⟩ * Factor.number ⟨v, 1⟩ < 2 ^ (24 * 2) * 2 ^ (24 * 1) :=
          Nat.mul_lt_mul'' hPosition hValue
      _ < 2 ^ 124 := by decide
  plain f hf := by
    rw [mergeFactors_two hNe] at hf
    -- a pair is listed in the order of its primes, not in that of its roles
    split at hf <;> rcases List.mem_pair.mp hf with rfl | rfl <;>
      exact mayBeChecksum_of_lt (by decide)
  interpreted chunk := by
    rw [mergeFactors_two hNe]
    split <;> rfl

theorem payload_degenerate : Record.degenerate.Payload [] where
  factors := rfl
  pos := by simp
  numbered := by simp
  small := by decide
  plain := by simp [mergeFactors]
  interpreted _ := rfl

theorem Record.WellFormed.exists_payload {r : Record} (h : r.WellFormed) :
    ∃ fs, r.Payload fs := by
  rcases h.cases with ⟨op, hOp, rfl⟩ | ⟨k, hk, rfl⟩ | ⟨v, hv, rfl⟩ | ⟨p, v, hNe, hp, hv, rfl⟩ | rfl
  · exact ⟨_, payload_ofOpcode hOp⟩
  · exact ⟨_, payload_push hk⟩
  · exact ⟨_, payload_data hv⟩
  · exact ⟨_, payload_pair hNe hp hv⟩
  · exact ⟨_, payload_degenerate⟩

-- ---------------------------------------------------------------------------
-- The round trip
-- ---------------------------------------------------------------------------

theorem Record.Payload.encode_eq {r : Record} {fs : List Factor} (h : r.Payload fs) :
    encode r = .ok (factorsNumber fs) := by
  have hBound : factorsNumber fs < chunkBound := Nat.lt_trans h.small (by decide)
  have hOk := encodeFactors_eq_ok_iff.mpr
    ⟨fun f hf => .inr (h.numbered f hf), rfl, hBound⟩
  rw [encode, h.factors]
  exact hOk

theorem Record.Payload.decode_eq {r : Record} {fs : List Factor} (h : r.Payload fs) :
    decode (factorsNumber fs) = .ok r := by
  rw [← number_mergeFactors, decode_number (canonical_mergeFactors h.pos h.numbered) h.plain]
  exact h.interpreted _

/-- A well-formed record is written as a small chunk, from which it is read back. -/
theorem Record.WellFormed.encode_decode {r : Record} (h : r.WellFormed) :
    ∃ c, encode r = .ok c ∧ c < 2 ^ 124 ∧ decode c = .ok r := by
  obtain ⟨fs, hPayload⟩ := h.exists_payload
  exact ⟨_, hPayload.encode_eq, hPayload.small, hPayload.decode_eq⟩

theorem encodeFactors_error_of_index {fs : List Factor} {i e : Nat} (hMem : ⟨i, e⟩ ∈ fs)
    (hExp : e ≠ 0) (hIndex : primeCount ≤ i) : ∃ error, encodeFactors fs = .error error := by
  cases hEq : encodeFactors fs with
  | error error => exact ⟨error, rfl⟩
  | ok c =>
    obtain ⟨hNumbered, -⟩ := encodeFactors_eq_ok_iff.mp hEq
    rcases hNumbered _ hMem with hZero | hLt
    · exact absurd hZero hExp
    · exact absurd hLt (Nat.not_lt.mpr hIndex)

/-- A record that is not well formed is refused. -/
theorem encode_error_of_not_wellFormed {r : Record} (h : ¬ r.WellFormed) :
    ∃ e, encode r = .error e := by
  cases r with
  | instruction op operand =>
    by_cases hOp : op = .push
    · subst hOp
      cases operand with
      | none => exact ⟨_, rfl⟩
      | some k =>
        have hk : primeCount ≤ k := Nat.le_of_not_lt fun hLt => h ⟨k, rfl, hLt⟩
        exact encodeFactors_error_of_index (i := k) (e := operandExponent) (by simp) (by decide) hk
    · cases operand with
      | none => exact absurd (wellFormed_ofOpcode hOp) h
      | some k =>
        refine ⟨.operandNotAllowed, ?_⟩
        -- only a push may have an operand
        cases op <;> first | rfl | exact absurd rfl hOp
  | data v =>
    exact encodeFactors_error_of_index (i := v) (e := dataExponent) (by simp) (by decide)
      (Nat.le_of_not_lt h)
  | pair p v =>
    by_cases hNe : p = v
    · exact ⟨.equalPair, by rw [encode, Record.factors, if_pos hNe]; rfl⟩
    · have hEncode : encode (.pair p v) =
          encodeFactors [⟨p, positionExponent⟩, ⟨v, valueExponent⟩] := by
        rw [encode, Record.factors, if_neg hNe]
        rfl
      rw [hEncode]
      -- whichever index has no prime is what the pair is refused for
      by_cases hp : p < primeCount
      · have hv : primeCount ≤ v := Nat.le_of_not_lt fun hLt => h ⟨hNe, hp, hLt⟩
        exact encodeFactors_error_of_index (i := v) (e := valueExponent) (by simp) (by decide) hv
      · exact encodeFactors_error_of_index (i := p) (e := positionExponent) (by simp) (by decide)
          (Nat.le_of_not_lt hp)
  | degenerate => exact absurd trivial h

/-- Every record either is well formed and comes back from its chunk, or is refused. -/
theorem encode_decode_or_refused (r : Record) :
    (r.WellFormed ∧ ∃ c < chunkBound, encode r = .ok c ∧ decode c = .ok r) ∨
      (¬ r.WellFormed ∧ ∃ e, encode r = .error e) := by
  by_cases h : r.WellFormed
  · obtain ⟨c, hEncode, hSmall, hDecode⟩ := h.encode_decode
    exact .inl ⟨h, c, Nat.lt_trans hSmall (by decide), hEncode, hDecode⟩
  · exact .inr ⟨h, encode_error_of_not_wellFormed h⟩

-- ---------------------------------------------------------------------------
-- The chunk of a record
-- ---------------------------------------------------------------------------

/-- The chunk that a record is written as; zero for a record that is refused. -/
def Record.chunk (r : Record) : Chunk := (encode r).toOption.getD 0

namespace Record.WellFormed

variable {r : Record}

theorem encode_chunk (h : r.WellFormed) : encode r = .ok r.chunk := by
  obtain ⟨c, hEncode, -, -⟩ := h.encode_decode
  rw [Record.chunk, hEncode]
  rfl

theorem decode_chunk (h : r.WellFormed) : decode r.chunk = .ok r := by
  obtain ⟨c, hEncode, -, hDecode⟩ := h.encode_decode
  rw [Record.chunk, hEncode]
  exact hDecode

theorem chunk_lt (h : r.WellFormed) : r.chunk < 2 ^ 124 := by
  obtain ⟨c, hEncode, hSmall, -⟩ := h.encode_decode
  rw [Record.chunk, hEncode]
  exact hSmall

end Record.WellFormed

/-- The records that are written, and as which chunk. -/
theorem encode_eq_ok_iff {r : Record} {c : Chunk} :
    encode r = .ok c ↔ r.WellFormed ∧ c = r.chunk := by
  constructor
  · intro hEncode
    have hWellFormed : r.WellFormed := by
      by_contra hNot
      obtain ⟨e, hError⟩ := encode_error_of_not_wellFormed hNot
      rw [hError] at hEncode
      cases hEncode
    rw [hWellFormed.encode_chunk, Except.ok.injEq] at hEncode
    exact ⟨hWellFormed, hEncode.symm⟩
  · rintro ⟨hWellFormed, rfl⟩
    exact hWellFormed.encode_chunk

/-- The chunk of a record is the product of its payload. -/
theorem Record.Payload.chunk_eq {r : Record} {fs : List Factor} (h : r.Payload fs) :
    r.chunk = factorsNumber fs := by
  rw [Record.chunk, h.encode_eq]
  rfl

section Datum

variable {v : Nat} (hv : v < primeCount)
include hv

theorem canonical_data : Canonical [⟨v, dataExponent⟩] :=
  ⟨List.pairwise_singleton _ _, by simp [dataExponent], by simpa using hv⟩

/-- A datum's chunk has one prime factor, of its index. -/
theorem factorize_chunk_data :
    factorize (Record.data v).chunk = .ok [(primeOf v, dataExponent)] := by
  rw [(payload_data hv).chunk_eq]
  exact factorize_number (canonical_data hv)

end Datum

end FactorMachine
