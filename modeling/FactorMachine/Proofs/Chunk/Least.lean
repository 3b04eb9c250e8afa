import FactorMachine.Proofs.Chunk.RoundTrip
import FactorMachine.Proofs.Outcome
import FactorMachine.Proofs.Sorting
import Mathlib.Order.Bounds.Basic

/-!
# FactorMachine — the least chunk of a meaning

Many chunks mean the same: a factor beside an opcode is ignored, of several operands only the
one with the lowest index counts, and a checksum may be added. Every one of them is a multiple
of the plain encoding of its meaning. So the plain encoding is the least chunk of that meaning,
and writing what a chunk means brings it into a canonical form.

The proof follows the reading of a chunk. Its factors multiply to the chunk; taking a checksum
away and leaving its correction behind only divides; and the factors that a meaning is read
from are different factors of the payload, which together are the payload of the record.

## Results

* `indexedFactors_eq_ok_iff`  — the factors of a chunk are the canonical list with its product.
* `Canonical.logical`, `logical_dvd` — the payload is canonical too, and divides the chunk.
* `Reading.of_interpret`      — a meaning is written with factors that the payload holds.
* `canonicalForm_of_decode`   — the plain encoding of a meaning is the least chunk that has it.
-/

namespace FactorMachine

-- ---------------------------------------------------------------------------
-- The factors of a chunk
-- ---------------------------------------------------------------------------

/-- A factorization by numbered primes is one of a canonical list of factors. -/
theorem IsFactorization.exists_canonical {c : Nat} {ps : List (Nat × Nat)}
    (h : IsFactorization c ps) (hNumbered : NumberedPrimes ps) :
    ∃ fs, Canonical fs ∧ fs.map Factor.primePower = ps := by
  refine ⟨ps.map fun f => ⟨Nat.count Nat.Prime f.1, f.2⟩, ⟨?_, ?_, ?_⟩, ?_⟩
  · rw [List.pairwise_map]
    refine h.ascending.imp_of_mem ?_
    intro f g hf _ hLt
    exact Nat.count_strict_mono (h.prime f hf) hLt
  · intro f hf
    obtain ⟨g, hg, rfl⟩ := List.mem_map.mp hf
    exact h.pos g hg
  · intro f hf
    obtain ⟨g, hg, rfl⟩ := List.mem_map.mp hf
    rw [← Sieve.count_primes]
    exact Nat.count_strict_mono (h.prime g hg) (Nat.lt_succ_of_le (hNumbered g hg))
  · rw [List.map_map]
    refine (List.map_congr_left ?_).trans (List.map_id ps)
    intro f hf
    -- a prime is the one of its own index
    exact Prod.ext (Nat.nth_count (h.prime f hf)) rfl

/-- The prime powers that a number is factorized into are those of canonical factors. -/
theorem exists_canonical_of_factorize {n : Nat} {ps : List (Nat × Nat)} (h : factorize n = .ok ps) :
    ∃ fs, Canonical fs ∧ factorsNumber fs = n ∧ fs.map Factor.primePower = ps := by
  obtain ⟨hIs, hNumbered⟩ := factorize_eq_ok_iff.mp h
  obtain ⟨fs, hCanonical, rfl⟩ := hIs.exists_canonical hNumbered
  exact ⟨fs, hCanonical, hCanonical.isFactorization.product.symm.trans hIs.product, rfl⟩

/-- The factors of a chunk are the canonical list whose product it is. -/
theorem indexedFactors_eq_ok_iff {c : Chunk} {fs : List Factor} :
    indexedFactors c = .ok fs ↔ Canonical fs ∧ factorsNumber fs = c := by
  constructor
  · intro hRead
    obtain ⟨ps, hPrimes, -⟩ := bind_eq_ok hRead
    obtain ⟨hIs, hNumbered⟩ := factorize_eq_ok_iff.mp hPrimes
    obtain ⟨gs, hCanonical, rfl⟩ := hIs.exists_canonical hNumbered
    have hNumber : factorsNumber gs = c := hCanonical.isFactorization.product.symm.trans hIs.product
    have hSame := indexedFactors_number hCanonical
    rw [hNumber, hRead, Except.ok.injEq] at hSame
    subst hSame
    exact ⟨hCanonical, hNumber⟩
  · rintro ⟨hCanonical, rfl⟩
    exact indexedFactors_number hCanonical

-- ---------------------------------------------------------------------------
-- Factors of a product
-- ---------------------------------------------------------------------------

theorem factorsNumber_perm {fs gs : List Factor} (h : fs.Perm gs) :
    factorsNumber fs = factorsNumber gs := (h.map Factor.number).prod_eq

/-- Different factors of a list divide its product together. -/
theorem factorsNumber_dvd_of_subset {fs gs : List Factor} (hNodup : fs.Nodup) (hSub : fs ⊆ gs) :
    factorsNumber fs ∣ factorsNumber gs := by
  obtain ⟨hs, hPerm, hSublist⟩ := List.subperm_of_subset hNodup hSub
  rw [← factorsNumber_perm hPerm]
  exact (hSublist.map Factor.number).prod_dvd_prod

theorem Canonical.sublist {fs gs : List Factor} (h : Canonical gs) (hSub : fs.Sublist gs) :
    Canonical fs where
  ascending := h.ascending.sublist hSub
  pos f hf := h.pos f (hSub.subset hf)
  numbered f hf := h.numbered f (hSub.subset hf)

/-- No two factors of a canonical list have one index. -/
theorem Canonical.eq_of_index {fs : List Factor} (h : Canonical fs) {f g : Factor} (hf : f ∈ fs)
    (hg : g ∈ fs) (hIndex : f.index = g.index) : f = g := by
  have hDistinct : fs.Pairwise fun f g => f.index ≠ g.index := h.ascending.imp Nat.ne_of_lt
  exact List.inj_on_of_nodup_map (List.pairwise_map.mpr hDistinct) hf hg hIndex

-- ---------------------------------------------------------------------------
-- Taking a checksum away
-- ---------------------------------------------------------------------------

/-- A new factor inserted by its index keeps a list canonical. -/
theorem Canonical.insertSorted {f : Factor} {fs : List Factor} (h : Canonical fs)
    (hPos : 0 < f.exponent) (hNumbered : f.index < primeCount)
    (hNew : ∀ g ∈ fs, g.index ≠ f.index) :
    Canonical (insertSorted (fun f g => f.index < g.index) f fs) where
  ascending := by
    refine pairwise_insertSorted (r := fun f g : Factor => f.index < g.index)
      (fun _ _ _ => Nat.lt_trans) h.ascending ?_
    intro g hg
    have hNe := hNew g hg
    split
    · rename_i hBefore
      simpa using hBefore
    · rename_i hBefore
      simp only [decide_eq_true_eq, Nat.not_lt] at hBefore
      omega
  pos g hg := by
    rcases mem_insertSorted.mp hg with rfl | hg
    · exact hPos
    · exact h.pos g hg
  numbered g hg := by
    rcases mem_insertSorted.mp hg with rfl | hg
    · exact hNumbered
    · exact h.numbered g hg

/-- What an analysis takes for the payload: the factors as they are, or those beside a
checksum, with the correction in its place. -/
theorem Analysis.logical_cases (raw : List Factor) :
    (ofFactors raw).logical = raw ∨
      ∃ candidate ∈ raw, (ofFactors raw).logical = raw.erase candidate ∨
        ∃ correction, 0 < correction ∧ correction ≤ candidate.exponent ∧
          (ofFactors raw).logical =
            insertSorted (fun f g => f.index < g.index) ⟨candidate.index, correction⟩
              (raw.erase candidate) := by
  unfold ofFactors
  cases hFind : raw.find? (·.mayBeChecksum) with
  | none => exact .inl rfl
  | some candidate =>
    dsimp only
    cases hIndex : checksumIndex (raw.erase candidate) with
    | error e => exact .inl rfl
    | ok index =>
      dsimp only
      by_cases hMatch : index = candidate.index
      · rw [if_pos hMatch, hMatch]
        refine .inr ⟨candidate, List.mem_of_find?_eq_some hFind, ?_⟩
        dsimp only
        by_cases hZero : candidate.exponent - checksumExponent = 0
        · rw [if_pos hZero]
          exact .inl rfl
        · rw [if_neg hZero]
          exact .inr ⟨_, Nat.pos_of_ne_zero hZero, Nat.sub_le _ _, rfl⟩
      · rw [if_neg hMatch]
        exact .inl rfl

variable {raw : List Factor}

/-- The checksum's index is free once the checksum is taken away. -/
theorem Canonical.index_ne_of_mem_erase (h : Canonical raw) {candidate g : Factor}
    (hCandidate : candidate ∈ raw) (hg : g ∈ raw.erase candidate) : g.index ≠ candidate.index := by
  intro hIndex
  have hNodup : raw.Nodup := h.ascending.imp fun {f g} hLt hEq => by
    rw [hEq] at hLt
    exact Nat.lt_irrefl _ hLt
  obtain ⟨hNe, hMem⟩ := hNodup.mem_erase_iff.mp hg
  exact hNe (h.eq_of_index hMem hCandidate hIndex)

theorem Canonical.logical (h : Canonical raw) : Canonical (Analysis.ofFactors raw).logical := by
  rcases Analysis.logical_cases raw with hEq | ⟨candidate, hMem, hEq | ⟨correction, hPos, -, hEq⟩⟩
  · rw [hEq]
    exact h
  · rw [hEq]
    exact h.sublist List.erase_sublist
  · rw [hEq]
    refine (h.sublist List.erase_sublist).insertSorted hPos (h.numbered candidate hMem) ?_
    intro g hg
    show g.index ≠ candidate.index
    exact h.index_ne_of_mem_erase hMem hg

/-- The payload divides the chunk: a correction is at most the exponent it was taken from. -/
theorem logical_dvd (raw : List Factor) :
    factorsNumber (Analysis.ofFactors raw).logical ∣ factorsNumber raw := by
  rcases Analysis.logical_cases raw with hEq | ⟨candidate, hMem, hEq | ⟨correction, -, hLe, hEq⟩⟩
  · rw [hEq]
  · rw [hEq, factorsNumber_perm (List.perm_cons_erase hMem), factorsNumber_cons]
    exact Nat.dvd_mul_left _ _
  · rw [hEq, factorsNumber_perm (perm_insertSorted _ _ _),
      factorsNumber_perm (List.perm_cons_erase hMem), factorsNumber_cons, factorsNumber_cons]
    exact Nat.mul_dvd_mul_right (Nat.pow_dvd_pow _ hLe) _

-- ---------------------------------------------------------------------------
-- Reading a meaning from a payload
-- ---------------------------------------------------------------------------

theorem Opcode.index_of_ofIndex? {i : Nat} {op : Opcode} (h : ofIndex? i = some op) :
    op.index = i := by
  obtain ⟨hLt, rfl⟩ := List.getElem?_eq_some_iff.mp h
  exact List.Nodup.idxOf_getElem (by decide) i hLt

/-- A record that is written with factors that a payload holds. -/
structure Reading (r : Record) (logical : List Factor) : Prop where
  wellFormed : r.WellFormed
  dvd : ∀ fs, r.factors = .ok fs → factorsNumber fs ∣ factorsNumber logical

namespace Reading

variable {logical : List Factor} {chunk : Chunk} {r : Record}

theorem degenerate : Reading .degenerate logical where
  wellFormed := trivial
  dvd fs hFactors := by
    cases hFactors
    exact Nat.one_dvd _

theorem ofOpcode {op : Opcode} (hOp : op ≠ .push)
    (hMem : ⟨op.index, opcodeExponent⟩ ∈ logical) : Reading (.ofOpcode op) logical where
  wellFormed := wellFormed_ofOpcode hOp
  dvd fs hFactors := by
    rw [factors_ofOpcode hOp, Except.ok.injEq] at hFactors
    subst hFactors
    exact factorsNumber_dvd_of_subset (List.nodup_singleton _) (by simpa using hMem)

/-- Opcode and operand are different factors, as their exponents differ. -/
theorem push {k : Nat} (hCanonical : Canonical logical)
    (hOpcode : ⟨Opcode.push.index, opcodeExponent⟩ ∈ logical)
    (hOperand : ⟨k, operandExponent⟩ ∈ logical) : Reading (.push k) logical where
  wellFormed := ⟨k, rfl, hCanonical.numbered _ hOperand⟩
  dvd fs hFactors := by
    cases hFactors
    refine factorsNumber_dvd_of_subset ?_ ?_
    · simp [opcodeExponent, operandExponent]
    · simp [hOpcode, hOperand]

/-- Opcode and operand on one prime. -/
theorem foldedPush (hFolded : ⟨Opcode.push.index, opcodeExponent + operandExponent⟩ ∈ logical) :
    Reading (.push Opcode.push.index) logical where
  wellFormed := ⟨_, rfl, Opcode.index_lt .push⟩
  dvd fs hFactors := by
    cases hFactors
    have hJoined :
        factorsNumber [⟨Opcode.push.index, opcodeExponent⟩, ⟨Opcode.push.index, operandExponent⟩] =
          factorsNumber [⟨Opcode.push.index, opcodeExponent + operandExponent⟩] := by
      simp [Factor.number, pow_add]
    rw [hJoined]
    exact factorsNumber_dvd_of_subset (List.nodup_singleton _) (by simpa using hFolded)

theorem data {v : Nat} (hCanonical : Canonical logical) (hMem : ⟨v, dataExponent⟩ ∈ logical) :
    Reading (.data v) logical where
  wellFormed := hCanonical.numbered _ hMem
  dvd fs hFactors := by
    cases hFactors
    exact factorsNumber_dvd_of_subset (List.nodup_singleton _) (by simpa using hMem)

theorem pair {p v : Nat} (hCanonical : Canonical logical)
    (hPosition : ⟨p, positionExponent⟩ ∈ logical) (hValue : ⟨v, valueExponent⟩ ∈ logical) :
    Reading (.pair p v) logical := by
  have hNe : p ≠ v := by
    rintro rfl
    -- one index has one exponent
    cases hCanonical.eq_of_index hPosition hValue rfl
  refine ⟨⟨hNe, hCanonical.numbered _ hPosition, hCanonical.numbered _ hValue⟩, ?_⟩
  intro fs hFactors
  rw [Record.factors, if_neg hNe, Except.ok.injEq] at hFactors
  subst hFactors
  refine factorsNumber_dvd_of_subset ?_ ?_
  · simp [positionExponent, valueExponent]
  · simp [hPosition, hValue]

theorem of_interpretOpcode {opcode : Factor} (hCanonical : Canonical logical)
    (hMem : opcode ∈ logical) (hExp : opcode.exponent = opcodeExponent)
    (h : interpretOpcode chunk logical opcode = .ok r) : Reading r logical := by
  obtain ⟨index, exponent⟩ := opcode
  obtain rfl : exponent = opcodeExponent := hExp
  unfold interpretOpcode at h
  split at h
  · cases h
  · rename_i hPush
    obtain rfl := Opcode.index_of_ofIndex? hPush
    split at h
    · rename_i operand hFind
      cases h
      obtain ⟨k, e⟩ := operand
      have hOperand : e = operandExponent := by simpa using List.find?_some hFind
      subst hOperand
      exact push hCanonical hMem (List.mem_of_find?_eq_some hFind)
    · cases h
  · rename_i op hNotPush hOp
    cases h
    obtain rfl := Opcode.index_of_ofIndex? hOp
    refine ofOpcode ?_ hMem
    rintro rfl
    exact hNotPush rfl

theorem of_interpretData (hCanonical : Canonical logical)
    (h : interpretData chunk logical = .ok r) : Reading r logical := by
  unfold interpretData at h
  dsimp only at h
  have hOtherwise : ∀ {r : Record},
      (if logical.any (·.exponent == operandExponent) then
        (Except.error (.noOpcode chunk) : Except ChunkError Record)
      else .error (.unrecognizedChunk chunk)) ≠ .ok r := by
    intro r hEq
    split at hEq <;> cases hEq
  split at h
  · rename_i f
    obtain ⟨index, exponent⟩ := f
    by_cases hFolded : Factor.isFoldedPush ⟨index, exponent⟩ = true
    · rw [if_pos hFolded] at h
      cases h
      simp only [Factor.isFoldedPush, Bool.and_eq_true, beq_iff_eq] at hFolded
      obtain ⟨rfl, rfl⟩ := hFolded
      exact foldedPush (by simp)
    · rw [if_neg hFolded] at h
      by_cases hData : exponent = dataExponent
      · subst hData
        rw [if_pos rfl] at h
        cases h
        exact data hCanonical (by simp)
      · rw [if_neg hData] at h
        exact absurd h hOtherwise
  · rename_i f g
    obtain ⟨i, e⟩ := f
    obtain ⟨j, d⟩ := g
    dsimp only at h
    by_cases hPair : e = positionExponent ∧ d = valueExponent
    · rw [if_pos hPair] at h
      cases h
      obtain ⟨rfl, rfl⟩ := hPair
      exact pair hCanonical (by simp) (by simp)
    · rw [if_neg hPair] at h
      by_cases hSwapped : e = valueExponent ∧ d = positionExponent
      · rw [if_pos hSwapped] at h
        cases h
        obtain ⟨rfl, rfl⟩ := hSwapped
        exact pair hCanonical (by simp) (by simp)
      · rw [if_neg hSwapped] at h
        exact absurd h hOtherwise
  · exact absurd h hOtherwise

/-- Whatever is read from a canonical payload is written with factors that it holds. -/
theorem of_interpret (hCanonical : Canonical logical) (h : interpret chunk logical = .ok r) :
    Reading r logical := by
  unfold interpret at h
  by_cases hEmpty : logical.isEmpty = true
  · rw [if_pos hEmpty] at h
    cases h
    exact degenerate
  · rw [if_neg hEmpty] at h
    split at h
    · exact of_interpretData hCanonical h
    · rename_i opcode hOnly
      have hMem : opcode ∈ logical.filter (·.exponent == opcodeExponent) := by simp [hOnly]
      obtain ⟨hLogical, hExp⟩ := List.mem_filter.mp hMem
      exact of_interpretOpcode hCanonical hLogical (by simpa using hExp) h
    · cases h

/-- The plain encoding of what was read divides the payload. -/
theorem chunk_dvd (h : Reading r logical) : r.chunk ∣ factorsNumber logical := by
  obtain ⟨fs, hPayload⟩ := h.wellFormed.exists_payload
  rw [hPayload.chunk_eq]
  exact h.dvd fs hPayload.factors

end Reading

-- ---------------------------------------------------------------------------
-- The canonical form
-- ---------------------------------------------------------------------------

/-- An analysis is one of the factors of the chunk. -/
theorem analyze_eq_ok {c : Chunk} {a : Analysis} (h : analyze c = .ok a) :
    ∃ raw, Canonical raw ∧ factorsNumber raw = c ∧ a = .ofFactors raw := by
  unfold analyze at h
  by_cases hZero : c = 0
  · rw [if_pos hZero] at h
    cases h
  · rw [if_neg hZero] at h
    cases hRead : indexedFactors c with
    | error e =>
      rw [hRead] at h
      cases e <;> cases h
    | ok raw =>
      rw [hRead] at h
      obtain ⟨hCanonical, hNumber⟩ := indexedFactors_eq_ok_iff.mp hRead
      exact ⟨raw, hCanonical, hNumber, (Except.ok.inj h).symm⟩

/-- The factors that a readable chunk was read from. -/
theorem decode_eq_ok {c : Chunk} {r : Record} (h : decode c = .ok r) :
    ∃ raw, Canonical raw ∧ factorsNumber raw = c ∧
      interpret c (Analysis.ofFactors raw).logical = .ok r := by
  unfold decode at h
  cases hAnalyze : analyze c with
  | error e =>
    rw [hAnalyze] at h
    cases h
  | ok a =>
    rw [hAnalyze] at h
    obtain ⟨raw, hCanonical, hNumber, rfl⟩ := analyze_eq_ok hAnalyze
    exact ⟨raw, hCanonical, hNumber, h⟩

/-- A readable chunk is positive and a multiple of the plain encoding of its meaning, which is
well formed. -/
theorem chunk_dvd_of_decode {c : Chunk} {r : Record} (h : decode c = .ok r) :
    0 < c ∧ r.WellFormed ∧ r.chunk ∣ c := by
  obtain ⟨raw, hCanonical, rfl, hInterpret⟩ := decode_eq_ok h
  have hReading := Reading.of_interpret hCanonical.logical hInterpret
  exact ⟨factorsNumber_pos raw, hReading.wellFormed, hReading.chunk_dvd.trans (logical_dvd raw)⟩

/-- Writes what a chunk means. -/
def canonicalForm (c : Chunk) : Except ChunkError Chunk := do encode (← decode c)

/-- What a chunk means is written as a divisor of the chunk with the same meaning, the least of
all chunks that have it, and writing what that one means changes nothing more. -/
theorem canonicalForm_of_decode {c : Chunk} {r : Record} (h : decode c = .ok r) :
    r.WellFormed ∧ ∃ c₀, encode r = .ok c₀ ∧ c₀ ∣ c ∧ IsLeast {c' | decode c' = .ok r} c₀ ∧
      canonicalForm c = .ok c₀ ∧ canonicalForm c₀ = .ok c₀ := by
  obtain ⟨-, hWellFormed, hDvd⟩ := chunk_dvd_of_decode h
  have hForm : ∀ {c'}, decode c' = .ok r → canonicalForm c' = .ok r.chunk := by
    intro c' hDecode
    rw [canonicalForm, hDecode]
    exact hWellFormed.encode_chunk
  refine ⟨hWellFormed, r.chunk, hWellFormed.encode_chunk, hDvd, ⟨hWellFormed.decode_chunk, ?_⟩,
    hForm h, hForm hWellFormed.decode_chunk⟩
  intro c' hDecode
  obtain ⟨hPos, -, hMultiple⟩ := chunk_dvd_of_decode hDecode
  exact Nat.le_of_dvd hPos hMultiple

/-- An addition with an ignored factor and a checksum whose correction is ignored as well. -/
theorem canonicalForm_add_checksummed :
    decode (3 ^ 4 * 7 * 19 ^ 7) = .ok (.ofOpcode .add) ∧
      (Record.ofOpcode .add).WellFormed ∧ ∃ c₀, encode (.ofOpcode .add) = .ok c₀ ∧
        c₀ ∣ 3 ^ 4 * 7 * 19 ^ 7 ∧ IsLeast {c' | decode c' = .ok (.ofOpcode .add)} c₀ ∧
          canonicalForm (3 ^ 4 * 7 * 19 ^ 7) = .ok c₀ ∧ canonicalForm c₀ = .ok c₀ := by
  have hDecode : decode (3 ^ 4 * 7 * 19 ^ 7) = .ok (.ofOpcode .add) := by decide +kernel
  exact ⟨hDecode, canonicalForm_of_decode hDecode⟩

end FactorMachine
