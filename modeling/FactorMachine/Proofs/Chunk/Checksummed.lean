import FactorMachine.Proofs.Chunk.Least
import Mathlib.Data.Nat.Bitwise

/-!
# FactorMachine — where a checksum can be read back

A chunk with a checksum is the product of a payload and one more prime power, of exponent six
plus a correction. Where the record is not what is read back from that product, the encoding is
refused. Which records that happens to depends on where the checksum falls:

* On an index of its own the checksum is recognized, and a correction greater than zero becomes
  one more factor of the payload. Beside an opcode that is ignored, unless it looks like a second
  opcode; a datum and a pair do not survive it.
* On an index of the payload it joins a factor that meant something else.
* On index zero with nothing beside it, the chunk is a power of two, whatever it was written for:
  the push of operand zero, the datum zero and the empty payload all end there.

## Results

* `decode_ownChecksum` — what is read from a checksum on an index of its own.
* `decode_mismatch`    — a checksum that joined a factor beside one other is not recognized.
* `decode_powerOfTwo`  — what is read from a checksum on index zero with nothing beside it.
* `readFrom_of_interpret` — the factors that a record can only have been read from.
* `Record.ChecksumFits.decode_eq_iff` — what is read back is the record exactly where the
  correction leaves it unambiguous.
* `encodeChecksummed_iff_unambiguous` — so the encoding succeeds there and is refused elsewhere.
-/

namespace FactorMachine

-- ---------------------------------------------------------------------------
-- Unambiguous records
-- ---------------------------------------------------------------------------

/-- The corrections that leave a record distinguishable from its checksum. -/
def Record.Unambiguous (c : Nat) : Record → Prop
  | .instruction _ operand => if operand = some 0 then c = 0 else c ≠ opcodeExponent
  | .data value => 1 ≤ value ∧ c = 0
  | .pair position value => 1 ≤ position ∧ value ≠ position ^^^ (2 * position) ∧ c = 0
  | .degenerate => c = 0

instance (c : Nat) : DecidablePred (Record.Unambiguous c)
  | .instruction _ operand =>
    inferInstanceAs (Decidable (if operand = some 0 then c = 0 else c ≠ opcodeExponent))
  | .data value => inferInstanceAs (Decidable (1 ≤ value ∧ c = 0))
  | .pair position value =>
    inferInstanceAs (Decidable (1 ≤ position ∧ value ≠ position ^^^ (2 * position) ∧ c = 0))
  | .degenerate => inferInstanceAs (Decidable (c = 0))

/-- The number that a payload stands for together with a checksum of correction `c` on index
`s`. -/
noncomputable def checksummedNumber (payload : List Factor) (s c : Nat) : Nat :=
  factorsNumber (⟨s, checksumExponent + c⟩ :: payload)

/-- A payload of a record with its checksum: the index of the checksum has a prime, and the
product is a chunk. -/
structure Record.ChecksumFits (r : Record) (c : Nat) (payload : List Factor) (s : Nat) :
    Prop where
  factors : r.factors = .ok payload
  index : checksumIndex (mergeFactors payload) = .ok s
  numbered : s < primeCount
  bounded : checksummedNumber payload s c < chunkBound

-- ---------------------------------------------------------------------------
-- Writing
-- ---------------------------------------------------------------------------

section Writing

variable {r : Record} {c s : Nat} {fs : List Factor}

/-- A chunk is less than 128 bits long, so no exponent in it reaches 128. -/
theorem exponent_lt_of_factorsNumber_lt {f : Factor} (h : factorsNumber (f :: fs) < chunkBound) :
    f.exponent < 128 := by
  rw [factorsNumber_cons] at h
  have hNumber : f.number < chunkBound :=
    Nat.lt_of_le_of_lt (Nat.le_mul_of_pos_right _ (factorsNumber_pos fs)) h
  have hTwo : 2 ^ f.exponent ≤ f.number := Nat.pow_le_pow_left (primeOf_prime f.index).two_le _
  exact (Nat.pow_lt_pow_iff_right (by omega)).mp (Nat.lt_of_le_of_lt hTwo hNumber)

theorem exponent_lt_of_mem {f : Factor} (hf : f ∈ fs) (hBound : factorsNumber fs < chunkBound) :
    f.exponent < 128 := by
  rw [factorsNumber_perm (List.perm_cons_erase hf)] at hBound
  exact exponent_lt_of_factorsNumber_lt hBound

/-- The product that is computed: the payload joined, then the checksum. -/
theorem number_mergeFactors_append (fs : List Factor) (s c : Nat) :
    factorsNumber (mergeFactors fs ++ [⟨s, checksumExponent + c⟩]) = checksummedNumber fs s c := by
  rw [factorsNumber_perm (List.perm_append_singleton _ _), checksummedNumber, factorsNumber_cons,
    factorsNumber_cons, number_mergeFactors]

namespace Record.ChecksumFits

/-- Of a well-formed record it is the payload that is read back without a checksum. -/
theorem payload (h : r.ChecksumFits c fs s) (hWell : r.WellFormed) : r.Payload fs := by
  obtain ⟨gs, hPayload⟩ := hWell.exists_payload
  obtain rfl : gs = fs := Except.ok.inj (hPayload.factors.symm.trans h.factors)
  exact hPayload

/-- Where the product is a chunk, it is written if the record is read back from it. -/
theorem encodeChecksummed_eq (h : r.ChecksumFits c fs s) (hWell : r.WellFormed) :
    encodeChecksummed r c =
      if (decode (checksummedNumber fs s c)).toOption = some r then .ok (checksummedNumber fs s c)
      else .error (.checksumCollision r) := by
  have hPayload := h.payload hWell
  have hCanonical := canonical_mergeFactors hPayload.pos hPayload.numbered
  have hExponent := exponent_lt_of_factorsNumber_lt h.bounded
  have hSmall : ¬ exponentBound ≤ checksumExponent + c :=
    Nat.not_le.mpr (Nat.lt_trans hExponent (by decide))
  have hProduct : encodeFactors (mergeFactors fs ++ [⟨s, checksumExponent + c⟩]) =
      .ok (checksummedNumber fs s c) := by
    refine encodeFactors_eq_ok_iff.mpr ⟨?_, number_mergeFactors_append fs s c, h.bounded⟩
    intro f hf
    rcases List.mem_append.mp hf with hf | hf
    · exact .inr (hCanonical.numbered f hf)
    · rw [List.mem_singleton.mp hf]
      exact .inr h.numbered
  rw [encodeChecksummed, bind_ok h.factors, bind_ok h.index, if_neg hSmall]
  exact bind_ok hProduct

end Record.ChecksumFits

/-- What was written with a checksum fits and is read back. -/
theorem fits_of_encodeChecksummed {chunk : Chunk} (h : encodeChecksummed r c = .ok chunk) :
    ∃ fs s, r.ChecksumFits c fs s ∧ chunk = checksummedNumber fs s c ∧ decode chunk = .ok r := by
  unfold encodeChecksummed at h
  obtain ⟨fs, hFactors, h⟩ := bind_eq_ok h
  obtain ⟨s, hIndex, h⟩ := bind_eq_ok h
  dsimp only at h
  split at h
  · cases h
  · obtain ⟨product, hProduct, h⟩ := bind_eq_ok h
    obtain ⟨hNumbered, hNumber, hBound⟩ := encodeFactors_eq_ok_iff.mp hProduct
    rw [number_mergeFactors_append] at hNumber
    have hChecksum : s < primeCount :=
      (hNumbered ⟨s, checksumExponent + c⟩ (by simp)).resolve_left (by simp [checksumExponent])
    split at h
    · rename_i hDecode
      cases h
      exact ⟨fs, s, ⟨hFactors, hIndex, hChecksum, hNumber ▸ hBound⟩, hNumber.symm,
        ok_of_toOption hDecode⟩
    · cases h

end Writing

-- ---------------------------------------------------------------------------
-- The index of a checksum
-- ---------------------------------------------------------------------------

theorem checksumStep_eq {i e : Nat} (hi : i < primeCount) (he : e < 16) (acc : Nat) :
    checksumStep acc ⟨i, e⟩ = .ok (acc ^^^ i * e) := by
  have hTerm : i * e < indexBound :=
    Nat.lt_trans (Nat.mul_lt_mul'' hi he) (by decide)
  rw [checksumStep, if_pos hTerm]

theorem checksumIndex_one {i e : Nat} (hi : i < primeCount) (he : e < 16) :
    checksumIndex [⟨i, e⟩] = .ok (i * e) := by
  rw [checksumIndex, List.foldlM_cons, checksumStep_eq hi he, Nat.zero_xor]
  rfl

theorem checksumIndex_two {i e j d : Nat} (hi : i < primeCount) (he : e < 16)
    (hj : j < primeCount) (hd : d < 16) :
    checksumIndex [⟨i, e⟩, ⟨j, d⟩] = .ok (i * e ^^^ j * d) := by
  rw [checksumIndex, List.foldlM_cons, checksumStep_eq hi he, Nat.zero_xor]
  exact bind_ok (checksumStep_eq hj hd _)

-- ---------------------------------------------------------------------------
-- A checksum with an index of its own
-- ---------------------------------------------------------------------------

theorem isFoldedPush_eq (i e : Nat) : Factor.isFoldedPush ⟨i, e⟩ = (i == 0 && e == 9) := rfl

theorem mayBeChecksum_of_le {i e : Nat} (hLe : checksumExponent ≤ e) (hOther : i ≠ 0 ∨ e ≠ 9) :
    Factor.mayBeChecksum ⟨i, e⟩ = true := by
  rw [Factor.mayBeChecksum, isFoldedPush_eq, Bool.and_eq_true, decide_eq_true_eq, Bool.not_eq_true',
    Bool.and_eq_false_iff, beq_eq_false_iff_ne, beq_eq_false_iff_ne]
  exact ⟨hLe, hOther⟩

/-- The payload beside a checksum of its own index: a correction greater than zero takes the place
of the checksum, unless the checksum is one that is read as a folded push. -/
def besideChecksum (s c : Nat) (payload : List Factor) : List Factor :=
  if c = 0 then payload
  else insertSorted (fun f g => f.index < g.index)
    ⟨s, if s = 0 ∧ c = dataExponent then checksumExponent + c else c⟩ payload

section Reading

variable {r : Record} {s c : Nat} {fs payload raw : List Factor}

/-- Canonical factors are what an analysis starts from. -/
theorem Canonical.decode_number (h : Canonical raw) : decode (factorsNumber raw) =
    interpret (factorsNumber raw) (Analysis.ofFactors raw).logical := by
  rw [decode, analyze, if_neg (factorsNumber_pos raw).ne', indexedFactors_number h]

theorem find?_mayBeChecksum {f : Factor} (hf : f ∈ raw) (hMay : f.mayBeChecksum = true)
    (hOnly : ∀ g ∈ raw, g ≠ f → g.mayBeChecksum = false) :
    raw.find? (·.mayBeChecksum) = some f := by
  cases hFind : raw.find? (·.mayBeChecksum) with
  | none => exact absurd hMay (List.find?_eq_none.mp hFind f hf)
  | some g =>
    congr 1
    by_contra hNe
    have hPlain := hOnly g (List.mem_of_find?_eq_some hFind) hNe
    rw [List.find?_some hFind] at hPlain
    cases hPlain

theorem logical_ownChecksum (hIndex : checksumIndex payload = .ok s)
    (hPlain : ∀ f ∈ payload, f.mayBeChecksum = false) :
    (Analysis.ofFactors (insertSorted (fun f g => f.index < g.index)
      ⟨s, checksumExponent + c⟩ payload)).logical = besideChecksum s c payload := by
  have hMem : ∀ {g : Factor}, g ∈ insertSorted (fun f g => f.index < g.index)
      ⟨s, checksumExponent + c⟩ payload → g ≠ ⟨s, checksumExponent + c⟩ → g.mayBeChecksum = false :=
    fun hg hNe => hPlain _ ((mem_insertSorted.mp hg).resolve_left hNe)
  unfold besideChecksum
  by_cases hFolded : s = 0 ∧ c = dataExponent
  · -- nothing can be a checksum, so the factors stay as they are
    obtain ⟨rfl, rfl⟩ := hFolded
    have hFind : (insertSorted (fun f g => f.index < g.index)
        ⟨0, checksumExponent + dataExponent⟩ payload).find? (·.mayBeChecksum) = none := by
      refine List.find?_eq_none.mpr fun g hg => ?_
      by_cases hSelf : g = ⟨0, checksumExponent + dataExponent⟩
      · rw [hSelf]
        decide
      · rw [hMem hg hSelf]
        decide
    rw [Analysis.ofFactors, hFind, if_neg (by decide), if_pos ⟨rfl, rfl⟩]
  · have hMay : Factor.mayBeChecksum ⟨s, checksumExponent + c⟩ = true := by
      refine mayBeChecksum_of_le (Nat.le_add_right _ _) ?_
      simp only [checksumExponent, dataExponent] at hFolded ⊢
      omega
    have hNotMem : (⟨s, checksumExponent + c⟩ : Factor) ∉ payload := by
      intro hIn
      rw [hPlain _ hIn] at hMay
      cases hMay
    have hFind := find?_mayBeChecksum (mem_insertSorted.mpr (.inl rfl)) hMay fun g => hMem
    have hCorrection : checksumExponent + c - checksumExponent = c := Nat.add_sub_cancel_left _ _
    rw [Analysis.ofFactors, hFind]
    dsimp only
    rw [erase_insertSorted hNotMem, hIndex]
    dsimp only
    rw [if_pos rfl]
    dsimp only
    rw [hCorrection, if_neg hFolded]

/-- A checksum on an index that the payload does not use leaves the payload, or the payload and
one more factor. -/
theorem decode_ownChecksum (hPayload : r.Payload fs)
    (hIndex : checksumIndex (mergeFactors fs) = .ok s) (hs : s < primeCount)
    (hNew : ∀ f ∈ mergeFactors fs, f.index ≠ s) (c : Nat) :
    decode (checksummedNumber fs s c) =
      interpret (checksummedNumber fs s c) (besideChecksum s c (mergeFactors fs)) := by
  have hCanonical := canonical_mergeFactors hPayload.pos hPayload.numbered
  have hRaw := hCanonical.insertSorted (f := ⟨s, checksumExponent + c⟩)
    (Nat.add_pos_left (by decide) c) hs hNew
  have hNumber : checksummedNumber fs s c = factorsNumber (insertSorted
      (fun f g => f.index < g.index) ⟨s, checksumExponent + c⟩ (mergeFactors fs)) := by
    rw [factorsNumber_perm (perm_insertSorted _ _ _), factorsNumber_cons, number_mergeFactors]
    rfl
  rw [hNumber, hRaw.decode_number, logical_ownChecksum hIndex hPayload.plain]

theorem length_besideChecksum (s c : Nat) (payload : List Factor) :
    (besideChecksum s c payload).length = payload.length + if c = 0 then 0 else 1 := by
  unfold besideChecksum
  split
  · rfl
  · exact (perm_insertSorted _ _ _).length_eq

-- ---------------------------------------------------------------------------
-- A checksum on an index of the payload
-- ---------------------------------------------------------------------------

/-- Two powers of one prime are one. -/
theorem factorsNumber_joined (i d e : Nat) (fs : List Factor) :
    factorsNumber (⟨i, d⟩ :: ⟨i, e⟩ :: fs) = factorsNumber (⟨i, d + e⟩ :: fs) := by
  rw [factorsNumber_cons, factorsNumber_cons, factorsNumber_cons, ← Nat.mul_assoc]
  congr 1
  exact (pow_add _ _ _).symm

/-- Beside one other factor, a checksum that does not name the index of its own prime is left
where it is. -/
theorem decode_mismatch {i j d e : Nat} (hNe : i ≠ j) (hi : i < primeCount) (hj : j < primeCount)
    (hChecksum : Factor.mayBeChecksum ⟨i, e⟩ = true) (hd : 0 < d ∧ d < checksumExponent)
    (hMismatch : j * d ≠ i) :
    decode (factorsNumber [⟨i, e⟩, ⟨j, d⟩]) =
      interpret (factorsNumber [⟨i, e⟩, ⟨j, d⟩]) (mergeFactors [⟨i, e⟩, ⟨j, d⟩]) := by
  have hExponent : checksumExponent ≤ e := by
    rw [Factor.mayBeChecksum, Bool.and_eq_true, decide_eq_true_eq] at hChecksum
    exact hChecksum.1
  have hDiffer : (⟨j, d⟩ : Factor) ≠ ⟨i, e⟩ := fun hEq => hNe (congrArg Factor.index hEq).symm
  have hCanonical : Canonical (mergeFactors [⟨i, e⟩, ⟨j, d⟩]) := by
    refine canonical_mergeFactors ?_ ?_
    · simp only [List.forall_mem_cons, List.not_mem_nil, false_implies, implies_true, and_true]
      exact ⟨Nat.lt_of_lt_of_le (by decide) hExponent, hd.1⟩
    · simp only [List.forall_mem_cons, List.not_mem_nil, false_implies, implies_true, and_true]
      exact ⟨hi, hj⟩
  have hPerm : (mergeFactors [⟨i, e⟩, ⟨j, d⟩]).Perm [⟨i, e⟩, ⟨j, d⟩] := by
    rw [mergeFactors_two hNe]
    split
    · exact .swap _ _ _
    · exact .refl _
  have hFind : (mergeFactors [⟨i, e⟩, ⟨j, d⟩]).find? (·.mayBeChecksum) = some ⟨i, e⟩ := by
    refine find?_mayBeChecksum (hPerm.mem_iff.mpr (by simp)) hChecksum ?_
    intro g hg hOther
    obtain rfl : g = ⟨j, d⟩ := by simpa [hOther] using hPerm.mem_iff.mp hg
    exact mayBeChecksum_of_lt hd.2
  have hErase : (mergeFactors [⟨i, e⟩, ⟨j, d⟩]).erase ⟨i, e⟩ = [⟨j, d⟩] := by
    rw [mergeFactors_two hNe]
    split
    · rw [List.erase_cons_tail (by simpa using hDiffer), List.erase_cons_head]
    · rw [List.erase_cons_head]
  have hLogical : (Analysis.ofFactors (mergeFactors [⟨i, e⟩, ⟨j, d⟩])).logical =
      mergeFactors [⟨i, e⟩, ⟨j, d⟩] := by
    rw [Analysis.ofFactors, hFind]
    dsimp only
    rw [hErase, checksumIndex_one hj (Nat.lt_trans hd.2 (by decide))]
    dsimp only
    rw [if_neg hMismatch]
  have hNumber := number_mergeFactors [⟨i, e⟩, ⟨j, d⟩]
  rw [← hNumber, hCanonical.decode_number, hLogical]

-- ---------------------------------------------------------------------------
-- What a payload is read as
-- ---------------------------------------------------------------------------

/-- The factors that must be there for a record to be read. -/
def ReadFrom (logical : List Factor) : Record → Prop
  | .instruction _ _ => (∃ f ∈ logical, f.exponent = opcodeExponent) ∨
      logical = [⟨Opcode.push.index, opcodeExponent + operandExponent⟩]
  | .data value => logical = [⟨value, dataExponent⟩]
  | .pair position value =>
      logical = [⟨position, positionExponent⟩, ⟨value, valueExponent⟩] ∨
        logical = [⟨value, valueExponent⟩, ⟨position, positionExponent⟩]
  | .degenerate => logical = []

variable {chunk : Chunk} {logical : List Factor}

theorem readFrom_of_interpretData (h : interpretData chunk logical = .ok r) :
    ReadFrom logical r := by
  unfold interpretData at h
  dsimp only at h
  have hOtherwise : (if logical.any (·.exponent == operandExponent) then
        (Except.error (.noOpcode chunk) : Except ChunkError Record)
      else .error (.unrecognizedChunk chunk)) ≠ .ok r := by
    intro hEq
    split at hEq <;> cases hEq
  split at h
  · rename_i f
    obtain ⟨i, e⟩ := f
    split at h
    · rename_i hFolded
      cases h
      rw [isFoldedPush_eq, Bool.and_eq_true, beq_iff_eq, beq_iff_eq] at hFolded
      obtain ⟨rfl, rfl⟩ := hFolded
      exact .inr rfl
    · split at h
      · rename_i hData
        cases h
        show [_] = [_]
        rw [← hData]
      · exact absurd h hOtherwise
  · rename_i f g
    split at h
    · rename_i hPair
      cases h
      exact .inl (by rw [← hPair.1, ← hPair.2])
    · split at h
      · rename_i hPair
        cases h
        exact .inr (by rw [← hPair.1, ← hPair.2])
      · exact absurd h hOtherwise
  · exact absurd h hOtherwise

theorem readFrom_of_interpret (h : interpret chunk logical = .ok r) : ReadFrom logical r := by
  unfold interpret at h
  split at h
  · rename_i hEmpty
    cases h
    exact List.isEmpty_iff.mp hEmpty
  · split at h
    · exact readFrom_of_interpretData h
    · rename_i opcode hOnly
      have hMem : opcode ∈ logical.filter (·.exponent == opcodeExponent) := by simp [hOnly]
      obtain ⟨hLogical, hExp⟩ := List.mem_filter.mp hMem
      have hOpcode : ∃ f ∈ logical, f.exponent = opcodeExponent :=
        ⟨opcode, hLogical, by simpa using hExp⟩
      unfold interpretOpcode at h
      split at h
      · cases h
      · split at h <;> cases h
        exact .inl hOpcode
      · cases h
        exact .inl hOpcode
    · cases h

-- ---------------------------------------------------------------------------
-- Where the record is read back
-- ---------------------------------------------------------------------------

/-- A record that is read from exactly as many factors as it has does not survive a correction. -/
theorem decode_eq_iff_no_correction (hPayload : r.Payload fs)
    (hIndex : checksumIndex (mergeFactors fs) = .ok s) (hs : s < primeCount)
    (hNew : ∀ f ∈ mergeFactors fs, f.index ≠ s)
    (hLength : ∀ logical, ReadFrom logical r → logical.length = (mergeFactors fs).length) :
    decode (checksummedNumber fs s c) = .ok r ↔ c = 0 := by
  rw [decode_ownChecksum hPayload hIndex hs hNew c]
  constructor
  · intro hRead
    have hSame := hLength _ (readFrom_of_interpret hRead)
    rw [length_besideChecksum] at hSame
    by_contra hc
    rw [if_neg hc] at hSame
    omega
  · rintro rfl
    exact hPayload.interpreted _

/-- The operand is found in front of whatever is added behind it. -/
theorem interpretOpcode_append {f : Factor} (h : interpretOpcode chunk logical f = .ok r)
    (others : List Factor) : interpretOpcode chunk (logical ++ others) f = .ok r := by
  unfold interpretOpcode at h ⊢
  cases hOp : Opcode.ofIndex? f.index with
  | none =>
    rw [hOp] at h
    cases h
  | some op =>
    rw [hOp] at h
    cases op with
    | push =>
      dsimp only at h ⊢
      cases hFind : logical.find? (·.exponent == operandExponent) with
      | none =>
        rw [hFind] at h
        cases h
      | some operand =>
        rw [hFind] at h
        rw [List.find?_append, hFind]
        exact h
    | _ => exact h

/-- Behind the only opcode of a payload a factor is ignored, unless it is an opcode itself. -/
theorem interpret_append {f g : Factor}
    (hOnly : logical.filter (·.exponent == opcodeExponent) = [f])
    (hRead : interpret chunk logical = .ok r) :
    interpret chunk (logical ++ [g]) = .ok r ↔ g.exponent ≠ opcodeExponent := by
  have hSome : logical.isEmpty ≠ true := by
    intro hEmpty
    rw [List.isEmpty_iff.mp hEmpty] at hOnly
    cases hOnly
  rw [interpret, if_neg hSome, hOnly] at hRead
  rw [interpret, if_neg (by simp), List.filter_append, hOnly]
  by_cases hOpcode : g.exponent = opcodeExponent
  · have hSecond : [g].filter (·.exponent == opcodeExponent) = [g] := by simp [hOpcode]
    rw [hSecond]
    exact iff_of_false (fun h => by cases h) (fun hNe => hNe hOpcode)
  · have hNone : [g].filter (·.exponent == opcodeExponent) = [] := by simp [hOpcode]
    rw [hNone]
    exact iff_of_true (interpretOpcode_append hRead _) hOpcode

/-- An instruction whose checksum lies behind its payload survives any correction but the one that
looks like a second opcode. -/
theorem decode_eq_iff_no_opcode {f : Factor} (hPayload : r.Payload fs)
    (hOnly : (mergeFactors fs).filter (·.exponent == opcodeExponent) = [f])
    (hIndex : checksumIndex (mergeFactors fs) = .ok s) (hs : s < primeCount)
    (hLast : ∀ g ∈ mergeFactors fs, g.index < s) :
    decode (checksummedNumber fs s c) = .ok r ↔ c ≠ opcodeExponent := by
  rw [decode_ownChecksum hPayload hIndex hs (fun g hg => (hLast g hg).ne) c, besideChecksum]
  by_cases hc : c = 0
  · rw [if_pos hc, hc]
    exact iff_of_true (hPayload.interpreted _) (by decide)
  · have hMem : f ∈ (mergeFactors fs).filter (·.exponent == opcodeExponent) := by simp [hOnly]
    have hs0 : s ≠ 0 := Nat.ne_of_gt (Nat.zero_lt_of_lt (hLast f (List.mem_filter.mp hMem).1))
    rw [if_neg hc, if_neg (fun h => hs0 h.1), insertSorted_eq_append (by simpa using hLast)]
    exact interpret_append hOnly (hPayload.interpreted _)

-- ---------------------------------------------------------------------------
-- The shapes of a record
-- ---------------------------------------------------------------------------

theorem decode_opcode_iff {op : Opcode} (hOp : op ≠ .push)
    (h : (Record.ofOpcode op).ChecksumFits c fs s) :
    decode (checksummedNumber fs s c) = .ok (.ofOpcode op) ↔ c ≠ opcodeExponent := by
  have hPayload := payload_ofOpcode hOp
  obtain rfl := Except.ok.inj (hPayload.factors.symm.trans h.factors)
  have hIndex := checksumIndex_one op.index_lt (e := opcodeExponent) (by decide)
  obtain rfl := Except.ok.inj (hIndex.symm.trans h.index)
  have hPos : 0 < op.index := by
    cases op <;> first | exact absurd rfl hOp | decide
  refine decode_eq_iff_no_opcode hPayload rfl h.index h.numbered ?_
  intro g hg
  rw [List.mem_singleton.mp hg]
  show op.index < op.index * 4
  omega

theorem decode_push_iff {k : Nat} (hk : k < primeCount) (hPos : 0 < k)
    (h : (Record.push k).ChecksumFits c fs s) :
    decode (checksummedNumber fs s c) = .ok (.push k) ↔ c ≠ opcodeExponent := by
  have hPayload := payload_push hk
  obtain rfl := Except.ok.inj (hPayload.factors.symm.trans h.factors)
  have hMerged := mergeFactors_push hPos
  have hIndex := h.index
  rw [hMerged, checksumIndex_two (by decide) (by decide) hk (by decide), Nat.zero_mul,
    Nat.zero_xor] at hIndex
  obtain rfl := Except.ok.inj hIndex
  refine decode_eq_iff_no_opcode (f := ⟨0, 4⟩) hPayload ?_ h.index h.numbered ?_
  · rw [hMerged]
    rfl
  · rw [hMerged]
    intro g hg
    rcases List.mem_pair.mp hg with rfl | rfl
    · show 0 < k * 5
      omega
    · show k < k * 5
      omega

theorem decode_data_iff {v : Nat} (hv : v < primeCount) (hPos : 0 < v)
    (h : (Record.data v).ChecksumFits c fs s) :
    decode (checksummedNumber fs s c) = .ok (.data v) ↔ c = 0 := by
  have hPayload := payload_data hv
  obtain rfl := Except.ok.inj (hPayload.factors.symm.trans h.factors)
  have hIndex := checksumIndex_one hv (e := dataExponent) (by decide)
  obtain rfl := Except.ok.inj (hIndex.symm.trans h.index)
  refine decode_eq_iff_no_correction hPayload h.index h.numbered ?_ ?_
  · intro g hg
    rw [List.mem_singleton.mp hg]
    show v ≠ v * 3
    omega
  · rintro logical rfl
    rfl

theorem decode_degenerate_iff (h : Record.degenerate.ChecksumFits c fs s) :
    decode (checksummedNumber fs s c) = .ok .degenerate ↔ c = 0 := by
  obtain rfl := Except.ok.inj (payload_degenerate.factors.symm.trans h.factors)
  refine decode_eq_iff_no_correction payload_degenerate h.index h.numbered ?_ ?_
  · intro g hg
    cases hg
  · rintro logical rfl
    rfl

/-- A power of two beyond the fifth is read as one factor on index zero, or as nothing. -/
theorem decode_powerOfTwo (c : Nat) :
    decode (checksummedNumber [] 0 c) =
      interpret (checksummedNumber [] 0 c) (besideChecksum 0 c []) :=
  decode_ownChecksum payload_degenerate rfl (by decide) (fun _ hg => by cases hg) c

/-- The folded push takes its checksum into the same prime. -/
theorem decode_foldedPush_iff (h : (Record.push 0).ChecksumFits c fs s) :
    decode (checksummedNumber fs s c) = .ok (.push 0) ↔ c = 0 := by
  obtain rfl := Except.ok.inj ((payload_push (k := 0) (by decide)).factors.symm.trans h.factors)
  obtain rfl : 0 = s := Except.ok.inj h.index
  have hNumber : checksummedNumber [⟨Opcode.push.index, opcodeExponent⟩, ⟨0, operandExponent⟩] 0 c =
      checksummedNumber [] 0 (c + 9) := by
    show factorsNumber [_, ⟨0, _⟩, ⟨0, _⟩] = _
    rw [factorsNumber_joined, factorsNumber_joined]
    rfl
  have hBeside : besideChecksum 0 (c + 9) [] = [⟨0, c + 9⟩] := by
    rw [besideChecksum, if_neg (by omega), if_neg (by simp [dataExponent])]
    rfl
  rw [hNumber, decode_powerOfTwo, hBeside]
  constructor
  · intro hRead
    rcases readFrom_of_interpret hRead with ⟨g, hg, hExponent⟩ | hFolded
    · rw [List.mem_singleton.mp hg] at hExponent
      simp [opcodeExponent] at hExponent
    · have hExponent : c + 9 = 9 := congrArg Factor.exponent (List.singleton_inj.mp hFolded)
      omega
  · rintro rfl
    rfl

/-- The datum zero becomes a power of two that is never read as a datum. -/
theorem decode_data_zero (h : (Record.data 0).ChecksumFits c fs s) :
    decode (checksummedNumber fs s c) ≠ .ok (.data 0) := by
  obtain rfl := Except.ok.inj ((payload_data (v := 0) (by decide)).factors.symm.trans h.factors)
  obtain rfl : 0 = s := Except.ok.inj h.index
  have hNumber : checksummedNumber [⟨0, dataExponent⟩] 0 c = checksummedNumber [] 0 (c + 3) := by
    show factorsNumber [_, ⟨0, _⟩] = _
    rw [factorsNumber_joined]
    rfl
  rw [hNumber, decode_powerOfTwo, besideChecksum, if_neg (by omega)]
  intro hRead
  have hFactor := List.singleton_inj.mp (readFrom_of_interpret hRead)
  have hExponent := congrArg Factor.exponent hFactor
  -- the exponent is that of the folded push, or greater than three
  dsimp only at hExponent
  split at hExponent
  · simp [checksumExponent, dataExponent] at hExponent
    omega
  · rename_i hOther
    simp [dataExponent] at hExponent hOther
    omega

/-- A checksum that has joined one factor of a pair leaves nothing that is read as a pair. -/
theorem decode_joined_ne_pair {i j d e : Nat} (hNe : i ≠ j) (hi : i < primeCount)
    (hj : j < primeCount) (hZero : i ≠ 0) (he : checksumExponent ≤ e)
    (hd : 0 < d ∧ d < checksumExponent) (hMismatch : j * d ≠ i) (p v : Nat) :
    decode (factorsNumber [⟨i, e⟩, ⟨j, d⟩]) ≠ .ok (.pair p v) := by
  rw [decode_mismatch hNe hi hj (mayBeChecksum_of_le he (.inl hZero)) hd hMismatch]
  intro hRead
  have hMem : (⟨i, e⟩ : Factor) ∈ mergeFactors [⟨i, e⟩, ⟨j, d⟩] := by
    rw [mergeFactors_two hNe]
    split <;> simp
  have hSmall : ∀ g ∈ mergeFactors [⟨i, e⟩, ⟨j, d⟩], g.exponent ≤ 2 := by
    rcases readFrom_of_interpret hRead with hEq | hEq <;> rw [hEq] <;>
      simp [positionExponent, valueExponent]
  exact absurd (Nat.le_trans he (hSmall _ hMem)) (by decide)

/-- The checksum of a pair falls on neither of its indices, unless the position is zero or the
value is its exclusive or with its double. -/
theorem pair_ne_checksum {p v : Nat} (hPos : 0 < p) (hApart : v ≠ p ^^^ (2 * p)) :
    p ≠ p * 2 ^^^ v ∧ v ≠ p * 2 ^^^ v := by
  constructor
  · intro hEq
    apply hApart
    rw [Nat.mul_comm] at hEq
    calc v = 2 * p ^^^ (2 * p ^^^ v) := (Nat.xor_xor_cancel_left _ _).symm
      _ = p ^^^ 2 * p := by rw [← hEq, Nat.xor_comm]
  · intro hEq
    have hZero : p * 2 = 0 := Nat.xor_left_inj.mp (hEq.symm.trans (Nat.zero_xor v).symm)
    omega

theorem decode_pair_iff {p v : Nat} (hNe : p ≠ v) (hp : p < primeCount) (hv : v < primeCount)
    (h : (Record.pair p v).ChecksumFits c fs s) :
    decode (checksummedNumber fs s c) = .ok (.pair p v) ↔
      1 ≤ p ∧ v ≠ p ^^^ (2 * p) ∧ c = 0 := by
  have hPayload := payload_pair hNe hp hv
  obtain rfl := Except.ok.inj (hPayload.factors.symm.trans h.factors)
  have hIndex : checksumIndex (mergeFactors [⟨p, positionExponent⟩, ⟨v, valueExponent⟩]) =
      .ok (p * 2 ^^^ v) := by
    rw [mergeFactors_two hNe]
    split
    · rw [checksumIndex_two hv (by decide) hp (by decide), Nat.xor_comm]
      simp [positionExponent, valueExponent]
    · rw [checksumIndex_two hp (by decide) hv (by decide)]
      simp [positionExponent, valueExponent]
  obtain rfl := Except.ok.inj (hIndex.symm.trans h.index)
  rcases Nat.eq_zero_or_pos p with rfl | hPos
  · -- the checksum falls on the value
    have hNumber : checksummedNumber [⟨0, positionExponent⟩, ⟨v, valueExponent⟩] (0 * 2 ^^^ v) c =
        factorsNumber [⟨v, checksumExponent + c + valueExponent⟩, ⟨0, positionExponent⟩] := by
      rw [← factorsNumber_joined, checksummedNumber, Nat.zero_mul, Nat.zero_xor]
      exact factorsNumber_perm (.cons _ (.swap _ _ _))
    rw [hNumber]
    refine iff_of_false ?_ (fun hCase => absurd hCase.1 (by decide))
    exact decode_joined_ne_pair hNe.symm hv hp hNe.symm (by omega) (by decide)
      (by rwa [Nat.zero_mul]) 0 v
  · by_cases hJoined : v = p ^^^ (2 * p)
    · -- the checksum falls on the position
      have hPosition : p * 2 ^^^ v = p := by
        rw [hJoined, Nat.mul_comm p 2, Nat.xor_comm p, Nat.xor_xor_cancel_left]
      have hNumber : checksummedNumber [⟨p, positionExponent⟩, ⟨v, valueExponent⟩] (p * 2 ^^^ v) c =
          factorsNumber [⟨p, checksumExponent + c + positionExponent⟩, ⟨v, valueExponent⟩] := by
        rw [← factorsNumber_joined, hPosition]
        rfl
      rw [hNumber]
      refine iff_of_false ?_ (fun hCase => hCase.2.1 hJoined)
      exact decode_joined_ne_pair hNe hp hv hPos.ne' (by omega) (by decide)
        (by rw [valueExponent, Nat.mul_one]; exact hNe.symm) p v
    · obtain ⟨hPosition, hValue⟩ := pair_ne_checksum hPos hJoined
      have hOwn : ∀ g ∈ mergeFactors [⟨p, positionExponent⟩, ⟨v, valueExponent⟩],
          g.index ≠ p * 2 ^^^ v := by
        intro g hg
        rw [mergeFactors_two hNe] at hg
        split at hg <;> rcases List.mem_pair.mp hg with rfl | rfl <;> assumption
      refine (decode_eq_iff_no_correction hPayload h.index h.numbered hOwn ?_).trans ?_
      · rintro logical (rfl | rfl) <;> rw [mergeFactors_two hNe] <;> split <;> rfl
      · exact ⟨fun hc => ⟨hPos, hJoined, hc⟩, fun hCase => hCase.2.2⟩

/-- What is read back is the record exactly where the correction leaves it unambiguous. -/
theorem Record.ChecksumFits.decode_eq_iff (h : r.ChecksumFits c fs s) (hWell : r.WellFormed) :
    decode (checksummedNumber fs s c) = .ok r ↔ r.Unambiguous c := by
  rcases hWell.cases with
    ⟨op, hOp, rfl⟩ | ⟨k, hk, rfl⟩ | ⟨v, hv, rfl⟩ | ⟨p, v, hNe, hp, hv, rfl⟩ | rfl
  · exact (decode_opcode_iff hOp h).trans (by simp [Record.Unambiguous])
  · rcases Nat.eq_zero_or_pos k with rfl | hPos
    · exact (decode_foldedPush_iff h).trans (by simp [Record.Unambiguous])
    · exact (decode_push_iff hk hPos h).trans (by simp [Record.Unambiguous, hPos.ne'])
  · rcases Nat.eq_zero_or_pos v with rfl | hPos
    · exact iff_of_false (decode_data_zero h) (fun hCase => absurd hCase.1 (by decide))
    · exact (decode_data_iff hv hPos h).trans ⟨fun hc => ⟨hPos, hc⟩, fun hCase => hCase.2⟩
  · exact decode_pair_iff hNe hp hv h
  · exact decode_degenerate_iff h

end Reading

-- ---------------------------------------------------------------------------
-- The checksummed encoding
-- ---------------------------------------------------------------------------

/-- **The checksummed encoding succeeds exactly where it is unambiguous.** Whatever is written is a
well-formed record with a correction that leaves it unambiguous, and is read back; so the datum
zero and pairs of position zero are never written. Of a well-formed record whose payload and
checksum make a chunk, that chunk is the encoding if the record is unambiguous with the correction,
and a collision is reported if it is not. -/
theorem encodeChecksummed_iff_unambiguous (r : Record) (c : Nat) :
    (∀ chunk, encodeChecksummed r c = .ok chunk →
      r.WellFormed ∧ r.Unambiguous c ∧ decode chunk = .ok r) ∧
    (∀ chunk v, encodeChecksummed (.data 0) c ≠ .ok chunk ∧
      encodeChecksummed (.pair 0 v) c ≠ .ok chunk) ∧
    ∀ payload s, r.WellFormed → r.ChecksumFits c payload s →
      (r.Unambiguous c → encodeChecksummed r c = .ok (checksummedNumber payload s c)) ∧
      (¬ r.Unambiguous c → encodeChecksummed r c = .error (.checksumCollision r)) := by
  have hWritten : ∀ {r : Record} {chunk}, encodeChecksummed r c = .ok chunk →
      r.WellFormed ∧ r.Unambiguous c ∧ decode chunk = .ok r := by
    intro r chunk hEncode
    obtain ⟨payload, s, hFits, rfl, hDecode⟩ := fits_of_encodeChecksummed hEncode
    obtain ⟨-, hWell, -⟩ := chunk_dvd_of_decode hDecode
    exact ⟨hWell, (hFits.decode_eq_iff hWell).mp hDecode, hDecode⟩
  refine ⟨fun _ => hWritten, fun chunk v => ⟨fun hEncode => ?_, fun hEncode => ?_⟩, ?_⟩
  · exact absurd (hWritten hEncode).2.1.1 (by decide)
  · exact absurd (hWritten hEncode).2.1.1 (by decide)
  · intro payload s hWell hFits
    rw [hFits.encodeChecksummed_eq hWell]
    have hIff := hFits.decode_eq_iff hWell
    constructor
    · intro hUnambiguous
      rw [hIff.mpr hUnambiguous]
      exact if_pos rfl
    · intro hAmbiguous
      exact if_neg fun hRead => hAmbiguous (hIff.mp (ok_of_toOption hRead))

/-- The datum one with its checksum on index three: written without a correction, refused with
one. -/
theorem encodeChecksummed_data_one :
    (Record.data 1).WellFormed ∧ (Record.data 1).ChecksumFits 0 [⟨1, dataExponent⟩] 3 ∧
      (Record.data 1).Unambiguous 0 ∧ encodeChecksummed (.data 1) 0 = .ok (3 ^ 3 * 7 ^ 6) ∧
      (Record.data 1).ChecksumFits 1 [⟨1, dataExponent⟩] 3 ∧ ¬ (Record.data 1).Unambiguous 1 ∧
      encodeChecksummed (.data 1) 1 = .error (.checksumCollision (.data 1)) := by
  have hNumber : ∀ c, checksummedNumber [⟨1, dataExponent⟩] 3 c = 7 ^ (6 + c) * 3 ^ 3 := by
    intro c
    simp [checksummedNumber, Factor.number, primeOf, Nat.nth_prime_one_eq_three,
      Nat.nth_prime_three_eq_seven, checksumExponent, dataExponent]
  have hWell : (Record.data 1).WellFormed := show 1 < primeCount by decide
  have hFits : ∀ c < 2, (Record.data 1).ChecksumFits c [⟨1, dataExponent⟩] 3 := by
    refine fun c hc => ⟨rfl, rfl, by decide, ?_⟩
    rw [hNumber]
    have hExponent : 7 ^ (6 + c) ≤ 7 ^ 7 := Nat.pow_le_pow_right (by omega) (by omega)
    exact Nat.lt_of_le_of_lt (Nat.mul_le_mul_right _ hExponent) (by decide)
  have hPlain : (Record.data 1).Unambiguous 0 := ⟨Nat.le_refl 1, rfl⟩
  have hCorrected : ¬ (Record.data 1).Unambiguous 1 := by decide
  refine ⟨hWell, hFits 0 (by omega), hPlain, ?_, hFits 1 (by omega), hCorrected, ?_⟩
  · have hOk := ((encodeChecksummed_iff_unambiguous (.data 1) 0).2.2 _ _ hWell
      (hFits 0 (by omega))).1 hPlain
    rw [hOk, hNumber]
    rfl
  · exact ((encodeChecksummed_iff_unambiguous (.data 1) 1).2.2 _ _ hWell
      (hFits 1 (by omega))).2 hCorrected

end FactorMachine
