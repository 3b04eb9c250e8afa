import FactorMachine.Proofs.Chunk.Checksummed

/-!
# FactorMachine — what an analysis says of a chunk

An analysis lists the factors of a chunk and says which of them is the checksum. At most one
factor comes into question: of those with an exponent of six or more, the folded push apart, the
one of the lowest index. It is the checksum if its index is the exclusive or of the weights of
all other factors, and then six of its exponent are taken away. In every other case the factors
stay as they are.

That the index of the checksum can always be computed is a matter of size: an index has 20 bits
and an exponent of a chunk has 7, so a weight is an index, and the exclusive or of indices is one.

## Results

* `Canonical.find?_eq_some_iff` — which factor comes into question.
* `checksumIndex_eq`            — the exclusive or is computed for the factors of any chunk.
* `ofFactors_of_match`, `ofFactors_of_mismatch`, `ofFactors_of_absent` — the three outcomes.
* `analyze_faithful`            — each chunk either has a prime beyond the numbered ones or gets
  an analysis that says what is there.
-/

namespace FactorMachine

-- ---------------------------------------------------------------------------
-- Weights
-- ---------------------------------------------------------------------------

/-- What a factor contributes to a checksum. -/
def Factor.weight (f : Factor) : Nat := f.index * f.exponent

/-- The exclusive or of the weights, the index of a checksum beside these factors. -/
def weightXor (fs : List Factor) : Nat := (fs.map Factor.weight).foldr (· ^^^ ·) 0

@[simp] theorem weightXor_nil : weightXor [] = 0 := rfl

@[simp] theorem weightXor_cons (f : Factor) (fs : List Factor) :
    weightXor (f :: fs) = f.weight ^^^ weightXor fs := rfl

theorem weightXor_perm {fs gs : List Factor} (h : fs.Perm gs) : weightXor fs = weightXor gs :=
  (h.map Factor.weight).foldr_eq 0

/-- Where every weight is an index, the exclusive or is computed. -/
theorem checksumIndex_eq {fs : List Factor} (hWeights : ∀ f ∈ fs, f.weight < indexBound) :
    checksumIndex fs = .ok (weightXor fs) := by
  have hFold : ∀ acc, fs.foldlM checksumStep acc = .ok (acc ^^^ weightXor fs) := by
    induction fs with
    | nil =>
      intro acc
      rw [weightXor_nil, Nat.xor_zero]
      rfl
    | cons f fs ih =>
      intro acc
      obtain ⟨hHead, hRest⟩ := List.forall_mem_cons.mp hWeights
      have hStep : checksumStep acc f = .ok (acc ^^^ f.weight) := if_pos hHead
      rw [List.foldlM_cons, bind_ok hStep, ih hRest, weightXor_cons, Nat.xor_assoc]
  rw [checksumIndex, hFold, Nat.zero_xor]

/-- The weight of a factor of a chunk is an index. -/
theorem weight_lt_of_mem {fs : List Factor} {f : Factor} (hf : f ∈ fs)
    (hNumbered : f.index < primeCount) (hBound : factorsNumber fs < chunkBound) :
    f.weight < indexBound :=
  calc f.index * f.exponent < primeCount * 128 :=
        Nat.mul_lt_mul'' hNumbered (exponent_lt_of_mem hf hBound)
    _ < indexBound := by decide

-- ---------------------------------------------------------------------------
-- The factor that comes into question
-- ---------------------------------------------------------------------------

/-- Opcode and operand of the push of operand zero, on one prime. -/
def foldedPush : Factor := ⟨Opcode.push.index, opcodeExponent + operandExponent⟩

example : foldedPush = ⟨0, 9⟩ := rfl

/-- The factor that comes into question as a checksum: of those with an exponent of six or more,
the folded push apart, the one of the lowest index. -/
structure ChecksumPlace (raw : List Factor) (f : Factor) : Prop where
  mem : f ∈ raw
  high : checksumExponent ≤ f.exponent
  notFolded : f ≠ foldedPush
  lowest : ∀ g ∈ raw, checksumExponent ≤ g.exponent → g ≠ foldedPush → f.index ≤ g.index

theorem mayBeChecksum_iff (f : Factor) :
    f.mayBeChecksum = true ↔ checksumExponent ≤ f.exponent ∧ f ≠ foldedPush := by
  obtain ⟨i, e⟩ := f
  have hFolded : Factor.isFoldedPush ⟨i, e⟩ = true ↔ (⟨i, e⟩ : Factor) = foldedPush := by
    rw [isFoldedPush_eq, Bool.and_eq_true, beq_iff_eq, beq_iff_eq]
    exact (Factor.mk.injEq i e 0 9).symm ▸ Iff.rfl
  rw [Factor.mayBeChecksum, Bool.and_eq_true, decide_eq_true_eq, Bool.not_eq_true',
    ← Bool.not_eq_true, hFolded]

section Outcomes

variable {raw : List Factor} {f : Factor}

/-- The search from the lowest index on finds the factor that comes into question. -/
theorem Canonical.find?_eq_some_iff (h : Canonical raw) :
    raw.find? (·.mayBeChecksum) = some f ↔ ChecksumPlace raw f := by
  have hFound : ∀ {g}, raw.find? (·.mayBeChecksum) = some g → ChecksumPlace raw g := by
    intro g hFind
    obtain ⟨hMay, before, after, rfl, hBefore⟩ := List.find?_eq_some_iff_append.mp hFind
    obtain ⟨hHigh, hNotFolded⟩ := (mayBeChecksum_iff g).mp hMay
    refine ⟨by simp, hHigh, hNotFolded, ?_⟩
    intro k hk hkHigh hkNotFolded
    -- what comes before is no candidate, and what comes after has a higher index
    rcases List.mem_append.mp hk with hk | hk
    · have hPlain := hBefore k hk
      rw [(mayBeChecksum_iff k).mpr ⟨hkHigh, hkNotFolded⟩] at hPlain
      cases hPlain
    · rcases List.mem_cons.mp hk with rfl | hk
      · exact Nat.le_refl _
      · have hAscending := (List.pairwise_append.mp h.ascending).2.1
        exact Nat.le_of_lt ((List.pairwise_cons.mp hAscending).1 k hk)
  constructor
  · exact hFound
  · intro hPlace
    cases hFind : raw.find? (·.mayBeChecksum) with
    | none =>
      have hNone := List.find?_eq_none.mp hFind f hPlace.mem
      exact absurd ((mayBeChecksum_iff f).mpr ⟨hPlace.high, hPlace.notFolded⟩) hNone
    | some g =>
      have hOther := hFound hFind
      have hIndex : g.index = f.index :=
        Nat.le_antisymm (hOther.lowest f hPlace.mem hPlace.high hPlace.notFolded)
          (hPlace.lowest g hOther.mem hOther.high hOther.notFolded)
      rw [h.eq_of_index hOther.mem hPlace.mem hIndex]

/-- Two factors do not come into question at once. -/
theorem ChecksumPlace.unique {g : Factor} (h : Canonical raw) (hf : ChecksumPlace raw f)
    (hg : ChecksumPlace raw g) : f = g := by
  have hFind := h.find?_eq_some_iff.mpr hf
  rw [h.find?_eq_some_iff.mpr hg, Option.some.injEq] at hFind
  exact hFind.symm

-- ---------------------------------------------------------------------------
-- The three outcomes
-- ---------------------------------------------------------------------------

/-- The factors without their checksum: what it has beyond six stays behind as a correction. -/
def withoutChecksum (raw : List Factor) (f : Factor) : List Factor :=
  if f.exponent - checksumExponent = 0 then raw.erase f
  else insertSorted (fun f g => f.index < g.index) ⟨f.index, f.exponent - checksumExponent⟩
    (raw.erase f)

theorem ofFactors_of_absent (h : Canonical raw) (hAbsent : ∀ f, ¬ ChecksumPlace raw f) :
    Analysis.ofFactors raw = ⟨raw, raw, .absent⟩ := by
  have hFind : raw.find? (·.mayBeChecksum) = none := by
    cases hFind : raw.find? (·.mayBeChecksum) with
    | none => rfl
    | some f => exact absurd (h.find?_eq_some_iff.mp hFind) (hAbsent f)
  rw [Analysis.ofFactors, hFind]

/-- The index of the checksum beside the other factors of a chunk. -/
theorem Canonical.checksumIndex_erase (h : Canonical raw) (hBound : factorsNumber raw < chunkBound)
    (f : Factor) : checksumIndex (raw.erase f) = .ok (weightXor (raw.erase f)) := by
  apply checksumIndex_eq
  intro g hg
  have hMem := List.mem_of_mem_erase hg
  exact weight_lt_of_mem hMem (h.numbered g hMem) hBound

theorem ofFactors_of_match (h : Canonical raw) (hBound : factorsNumber raw < chunkBound)
    (hPlace : ChecksumPlace raw f) (hMatch : f.index = weightXor (raw.erase f)) :
    Analysis.ofFactors raw =
      ⟨raw, withoutChecksum raw f, .valid (f.exponent - checksumExponent)⟩ := by
  rw [Analysis.ofFactors, h.find?_eq_some_iff.mpr hPlace]
  dsimp only
  rw [h.checksumIndex_erase hBound f, ← hMatch]
  dsimp only
  rw [if_pos rfl]
  rfl

theorem ofFactors_of_mismatch (h : Canonical raw) (hBound : factorsNumber raw < chunkBound)
    (hPlace : ChecksumPlace raw f) (hMismatch : f.index ≠ weightXor (raw.erase f)) :
    Analysis.ofFactors raw = ⟨raw, raw, .mismatch⟩ := by
  rw [Analysis.ofFactors, h.find?_eq_some_iff.mpr hPlace]
  dsimp only
  rw [h.checksumIndex_erase hBound f]
  dsimp only
  rw [if_neg hMismatch.symm]

/-- Six powers of its prime are what a checksum takes with it. -/
theorem number_withoutChecksum (hPlace : ChecksumPlace raw f) :
    factorsNumber raw =
      primeOf f.index ^ checksumExponent * factorsNumber (withoutChecksum raw f) := by
  have hHigh := hPlace.high
  rw [factorsNumber_perm (List.perm_cons_erase hPlace.mem), factorsNumber_cons, withoutChecksum]
  split
  · rename_i hZero
    have hSix : f.exponent = checksumExponent := by omega
    rw [Factor.number, hSix]
  · rw [factorsNumber_perm (perm_insertSorted _ _ _), factorsNumber_cons, ← Nat.mul_assoc]
    congr 1
    show primeOf f.index ^ f.exponent =
      primeOf f.index ^ checksumExponent * primeOf f.index ^ (f.exponent - checksumExponent)
    rw [← pow_add, Nat.add_sub_cancel' hHigh]

end Outcomes

-- ---------------------------------------------------------------------------
-- Analyses
-- ---------------------------------------------------------------------------

/-- What an analysis has to say of a chunk: its factors, which of them is the checksum, and what
is left without it. -/
structure Analysis.Faithful (a : Analysis) (c : Chunk) : Prop where
  canonical : Canonical a.raw
  product : factorsNumber a.raw = c
  valid_iff : ∀ k, a.checksum = .valid k ↔ ∃ f, ChecksumPlace a.raw f ∧
    f.index = weightXor (a.raw.erase f) ∧ k = f.exponent - checksumExponent
  mismatch_iff : a.checksum = .mismatch ↔ ∃ f, ChecksumPlace a.raw f ∧
    f.index ≠ weightXor (a.raw.erase f)
  without : ∀ f k, ChecksumPlace a.raw f → a.checksum = .valid k →
    Canonical a.logical ∧ ∃ p, primeAt f.index = .ok p ∧ p ^ checksumExponent ∣ c ∧
      factorsNumber a.logical = c / p ^ checksumExponent
  untouched : (∀ k, a.checksum ≠ .valid k) → a.logical = a.raw

section Faithful

variable {raw : List Factor} {f : Factor}

theorem Canonical.faithful_of_absent (h : Canonical raw) (hAbsent : ∀ f, ¬ ChecksumPlace raw f) :
    (Analysis.ofFactors raw).Faithful (factorsNumber raw) := by
  rw [ofFactors_of_absent h hAbsent]
  refine ⟨h, rfl, ?_, ?_, ?_, fun _ => rfl⟩
  · intro k
    exact iff_of_false (by simp) fun ⟨f, hPlace, _⟩ => hAbsent f hPlace
  · exact iff_of_false (by simp) fun ⟨f, hPlace, _⟩ => hAbsent f hPlace
  · intro f k hPlace
    exact absurd hPlace (hAbsent f)

theorem Canonical.faithful_of_match (h : Canonical raw) (hBound : factorsNumber raw < chunkBound)
    (hPlace : ChecksumPlace raw f) (hMatch : f.index = weightXor (raw.erase f)) :
    (Analysis.ofFactors raw).Faithful (factorsNumber raw) := by
  have hLogical := h.logical
  rw [ofFactors_of_match h hBound hPlace hMatch] at hLogical ⊢
  refine ⟨h, rfl, ?_, ?_, ?_, ?_⟩
  · intro k
    constructor
    · intro hValid
      exact ⟨f, hPlace, hMatch, (ChecksumStatus.valid.inj hValid).symm⟩
    · rintro ⟨g, hOther, -, rfl⟩
      rw [hPlace.unique h hOther]
  · refine iff_of_false (by simp) ?_
    rintro ⟨g, hOther, hMismatch⟩
    rw [← hPlace.unique h hOther] at hMismatch
    exact hMismatch hMatch
  · intro g k hOther _
    rw [← hPlace.unique h hOther]
    have hPrime : primeAt f.index = .ok (primeOf f.index) :=
      primeAt_of_lt (h.numbered f hPlace.mem)
    have hNumber := number_withoutChecksum hPlace
    have hPos : 0 < primeOf f.index ^ checksumExponent := Nat.pow_pos (primeOf_prime f.index).pos
    refine ⟨hLogical, _, hPrime, ⟨_, hNumber⟩, ?_⟩
    rw [hNumber, Nat.mul_div_cancel_left _ hPos]
  · intro hNone
    exact absurd rfl (hNone _)

theorem Canonical.faithful_of_mismatch (h : Canonical raw)
    (hBound : factorsNumber raw < chunkBound) (hPlace : ChecksumPlace raw f)
    (hMismatch : f.index ≠ weightXor (raw.erase f)) :
    (Analysis.ofFactors raw).Faithful (factorsNumber raw) := by
  rw [ofFactors_of_mismatch h hBound hPlace hMismatch]
  refine ⟨h, rfl, ?_, ?_, ?_, fun _ => rfl⟩
  · intro k
    refine iff_of_false (by simp) ?_
    rintro ⟨g, hOther, hSame, -⟩
    rw [← hPlace.unique h hOther] at hSame
    exact hMismatch hSame
  · exact iff_of_true rfl ⟨f, hPlace, hMismatch⟩
  · intro g k _ hValid
    cases hValid

/-- The factors of a chunk are analysed faithfully. -/
theorem Canonical.faithful (h : Canonical raw) (hBound : factorsNumber raw < chunkBound) :
    (Analysis.ofFactors raw).Faithful (factorsNumber raw) := by
  by_cases hAbsent : ∀ f, ¬ ChecksumPlace raw f
  · exact h.faithful_of_absent hAbsent
  · obtain ⟨f, hPlace⟩ := not_forall_not.mp hAbsent
    by_cases hMatch : f.index = weightXor (raw.erase f)
    · exact h.faithful_of_match hBound hPlace hMatch
    · exact h.faithful_of_mismatch hBound hPlace hMatch

end Faithful

/-- The factors of a chunk can be listed unless one of its primes is beyond the numbered ones. -/
theorem indexedFactors_spec {c : Chunk} (hPos : 0 < c) :
    (∃ raw, indexedFactors c = .ok raw ∧ ∀ q, q.Prime → q ∣ c → q ≤ largestPrime) ∨
      (indexedFactors c = .error .limitExceeded ∧ ∃ q, q.Prime ∧ q ∣ c ∧ largestPrime < q) := by
  rcases factorize_spec hPos with ⟨ps, hPrimes, hIs, hNumbered⟩ | ⟨hError, hLarge⟩
  · left
    obtain ⟨raw, hCanonical, rfl⟩ := hIs.exists_canonical hNumbered
    have hNumber : factorsNumber raw = c := hCanonical.isFactorization.product.symm.trans hIs.product
    refine ⟨raw, indexedFactors_eq_ok_iff.mpr ⟨hCanonical, hNumber⟩, ?_⟩
    intro q hq hDvd
    exact hNumbered.le_of_dvd hIs hq hDvd
  · right
    refine ⟨?_, hLarge⟩
    rw [indexedFactors, hError]
    rfl

theorem eq_of_interpretData_error {c : Chunk} {logical : List Factor} {e : ChunkError}
    (h : interpretData c logical = .error e) : e = .noOpcode c ∨ e = .unrecognizedChunk c := by
  have hOtherwise : (if logical.any (·.exponent == operandExponent) then
        (Except.error (.noOpcode c) : Except ChunkError Record)
      else .error (.unrecognizedChunk c)) = .error e →
      e = .noOpcode c ∨ e = .unrecognizedChunk c := by
    intro hError
    split at hError
    · exact .inl (Except.error.inj hError).symm
    · exact .inr (Except.error.inj hError).symm
  unfold interpretData at h
  dsimp only at h
  -- one factor, two factors, or another number of them; none of the readings is an error
  split at h
  · split at h
    · cases h
    · split at h
      · cases h
      · exact hOtherwise h
  · split at h
    · cases h
    · split at h
      · cases h
      · exact hOtherwise h
  · exact hOtherwise h

/-- What is read from a payload fails in three ways. -/
theorem eq_of_interpret_error {c : Chunk} {logical : List Factor} {e : ChunkError}
    (h : interpret c logical = .error e) :
    e = .ambiguousOpcode c ∨ e = .noOpcode c ∨ e = .unrecognizedChunk c := by
  have hOpcode : ∀ {f}, interpretOpcode c logical f = .error e → e = .unrecognizedChunk c := by
    intro f hError
    unfold interpretOpcode at hError
    split at hError
    · exact (Except.error.inj hError).symm
    · split at hError
      · cases hError
      · exact (Except.error.inj hError).symm
    · cases hError
  unfold interpret at h
  split at h
  · cases h
  · split at h
    · exact .inr (eq_of_interpretData_error h)
    · exact .inr (.inr (hOpcode h))
    · exact .inl (Except.error.inj h).symm

/-- **An analysis says what is there, and nothing else goes wrong.** A positive chunk with a prime
beyond the numbered ones is not recognized; every other one is analysed faithfully. So reading a
chunk fails in four ways only. -/
theorem analyze_faithful {c : Chunk} (hBound : c < chunkBound) :
    (0 < c →
      ((∃ q, q.Prime ∧ q ∣ c ∧ largestPrime < q) ∧ analyze c = .error (.unrecognizedChunk c)) ∨
      ((∀ q, q.Prime → q ∣ c → q ≤ largestPrime) ∧ ∃ a, analyze c = .ok a ∧ a.Faithful c)) ∧
    ∀ e, decode c = .error e →
      e = .corrupt ∨ e = .ambiguousOpcode c ∨ e = .noOpcode c ∨ e = .unrecognizedChunk c := by
  have hAnalyze : 0 < c →
      ((∃ q, q.Prime ∧ q ∣ c ∧ largestPrime < q) ∧ analyze c = .error (.unrecognizedChunk c)) ∨
      ((∀ q, q.Prime → q ∣ c → q ≤ largestPrime) ∧ ∃ a, analyze c = .ok a ∧ a.Faithful c) := by
    intro hPos
    rcases indexedFactors_spec hPos with ⟨raw, hRead, hSmall⟩ | ⟨hError, hLarge⟩
    · obtain ⟨hCanonical, rfl⟩ := indexedFactors_eq_ok_iff.mp hRead
      refine .inr ⟨hSmall, _, ?_, hCanonical.faithful hBound⟩
      rw [analyze, if_neg hPos.ne', hRead]
    · refine .inl ⟨hLarge, ?_⟩
      rw [analyze, if_neg hPos.ne', hError]
  refine ⟨hAnalyze, ?_⟩
  intro e hError
  rw [decode] at hError
  rcases Nat.eq_zero_or_pos c with rfl | hPos
  · exact .inl (Except.error.inj hError).symm
  · rcases hAnalyze hPos with ⟨-, hUnrecognized⟩ | ⟨-, a, hOk, -⟩
    · rw [hUnrecognized] at hError
      exact .inr (.inr (.inr (Except.error.inj hError).symm))
    · rw [hOk] at hError
      exact .inr (eq_of_interpret_error hError)

/-- An addition whose checksum carries a correction of one. -/
theorem analyze_faithful_corrected :
    3 ^ 4 * 11 ^ 7 < chunkBound ∧ 0 < 3 ^ 4 * 11 ^ 7 ∧
      ∃ a, analyze (3 ^ 4 * 11 ^ 7) = .ok a ∧ a.Faithful (3 ^ 4 * 11 ^ 7) ∧
        a = ⟨[⟨1, 4⟩, ⟨4, 7⟩], [⟨1, 4⟩, ⟨4, 1⟩], .valid 1⟩ := by
  have hBound : 3 ^ 4 * 11 ^ 7 < chunkBound := by decide
  have hPos : 0 < 3 ^ 4 * 11 ^ 7 := by decide
  have hRead : analyze (3 ^ 4 * 11 ^ 7) =
      .ok ⟨[⟨1, 4⟩, ⟨4, 7⟩], [⟨1, 4⟩, ⟨4, 1⟩], .valid 1⟩ := by decide +kernel
  refine ⟨hBound, hPos, ?_⟩
  rcases (analyze_faithful hBound).1 hPos with ⟨-, hError⟩ | ⟨-, a, hOk, hFaithful⟩
  · rw [hRead] at hError
    cases hError
  · refine ⟨a, hOk, hFaithful, ?_⟩
    rw [hRead] at hOk
    exact (Except.ok.inj hOk).symm

end FactorMachine
