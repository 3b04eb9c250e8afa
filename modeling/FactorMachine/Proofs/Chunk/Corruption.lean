import FactorMachine.Proofs.Chunk.Analysis
import FactorMachine.Proofs.Chunk.Joined

/-!
# FactorMachine — an altered exponent is noticed

A checksum covers the exponents of a payload. If one of them is altered in the chunk, or its
factor is lost, the record is not read back, whatever the exponent becomes.

Two things could go wrong. The altered factor could itself be taken for the checksum, once its
exponent is six or more and its index is lower than that of the checksum. It would have to be
confirmed by the other weights, among them that of the checksum, which is six times its index `s`.
Since the weights are bound together by the exclusive or, that comes down to the equation
`s ^^^ 6 * s = i ^^^ i * d` with the index `i < s` and the exponent `d` of the factor, and the
left side has a higher bit than the right one.

Or the checksum could still be right. It is, if the factor has index zero, because its weight is
zero with any exponent. Then only the reading notices: a factor of the record is not there.

## Results

* `xor_weights_ne`     — an altered factor is never confirmed as a checksum.
* `mem_of_interpret`   — a record is read from its own factors, the folded push apart.
* `Record.ChecksumFits.isSealed` — what keeps a payload and its checksum apart.
* `alteration_noticed` — no altered exponent leaves the record readable, and where the index is
  not zero the analysis reports the mismatch.
-/

namespace FactorMachine

-- ---------------------------------------------------------------------------
-- Exclusive or
-- ---------------------------------------------------------------------------

/-- Six times a number has a higher bit than the number, and than twice any lower number. -/
theorem xor_six_ne {s i d : Nat} (hLt : i < s) (hd : d ≤ 2) : s ^^^ 6 * s ≠ i ^^^ i * d := by
  intro hEq
  have hLow : 2 ^ s.log2 ≤ s := Nat.log2_self_le (Nat.ne_zero_of_lt hLt)
  have hHigh : s < 2 ^ (s.log2 + 1) := Nat.lt_log2_self
  have hPow : 2 ^ (s.log2 + 1) = 2 * 2 ^ s.log2 := Nat.pow_succ'
  have hProduct : i * d ≤ i * 2 := Nat.mul_le_mul_left i hd
  -- the bits above the highest one of `s`
  have hTop : 6 * s / 2 ^ (s.log2 + 1) = i * d / 2 ^ (s.log2 + 1) := by
    have hDiv := congrArg (· / 2 ^ (s.log2 + 1)) hEq
    simp only [Nat.xor_div_two_pow] at hDiv
    rwa [Nat.div_eq_of_lt hHigh, Nat.div_eq_of_lt (Nat.lt_trans hLt hHigh), Nat.zero_xor,
      Nat.zero_xor] at hDiv
  have hLeft : 3 ≤ 6 * s / 2 ^ (s.log2 + 1) :=
    (Nat.le_div_iff_mul_le (Nat.two_pow_pos _)).mpr (by omega)
  have hRight : i * d / 2 ^ (s.log2 + 1) < 2 :=
    (Nat.div_lt_iff_lt_mul (Nat.two_pow_pos _)).mpr (by omega)
  omega

/-- A factor of index `i` below that of the checksum `s`, whatever became of its exponent `d`, is
not confirmed by the weights beside it. -/
theorem xor_weights_ne {s i d : Nat} (hLt : i < s) (hShape : i = 0 ∨ d ≤ 2 ∨ s = i * d) :
    s ^^^ 6 * s ≠ i ^^^ i * d := by
  rcases hShape with rfl | hd | hs
  · have hNe : s ^^^ 6 * s ≠ 0 ^^^ 0 * 0 := xor_six_ne hLt (Nat.zero_le 2)
    rw [Nat.zero_mul] at hNe ⊢
    exact hNe
  · exact xor_six_ne hLt hd
  · intro hEq
    rw [← hs, Nat.xor_comm, Nat.xor_left_inj] at hEq
    omega

theorem weightXor_erase {fs : List Factor} {f : Factor} (hf : f ∈ fs) :
    weightXor (fs.erase f) = f.weight ^^^ weightXor fs := by
  rw [weightXor_perm (List.perm_cons_erase hf), weightXor_cons, Nat.xor_xor_cancel_left]

/-- A factor of exponent zero weighs nothing. -/
theorem weightXor_filter (fs : List Factor) :
    weightXor (fs.filter fun f => f.exponent ≠ 0) = weightXor fs := by
  induction fs with
  | nil => rfl
  | cons f fs ih =>
    rw [List.filter_cons, weightXor_cons]
    by_cases hZero : f.exponent = 0
    · rw [if_neg (by simpa using hZero), ih, Factor.weight, hZero, Nat.mul_zero, Nat.zero_xor]
    · rw [if_pos (by simpa using hZero), weightXor_cons, ih]

-- ---------------------------------------------------------------------------
-- What a record is read from
-- ---------------------------------------------------------------------------

section Reading

variable {chunk : Chunk} {logical fs : List Factor} {r : Record}

theorem mem_of_interpretOpcode {f : Factor} (hf : f ∈ logical)
    (hExponent : f.exponent = opcodeExponent) (h : interpretOpcode chunk logical f = .ok r)
    (hFactors : r.factors = .ok fs) : fs ⊆ logical := by
  obtain ⟨i, e⟩ := f
  obtain rfl : e = opcodeExponent := hExponent
  unfold interpretOpcode at h
  split at h
  · cases h
  · rename_i hPush
    obtain rfl := Opcode.index_of_ofIndex? hPush
    split at h
    · rename_i operand hFind
      cases h
      cases hFactors
      have hOperand : operand.exponent = operandExponent := by simpa using List.find?_some hFind
      have hMem : ⟨operand.index, operandExponent⟩ ∈ logical := by
        rw [← hOperand]
        exact List.mem_of_find?_eq_some hFind
      exact List.cons_subset.mpr ⟨hf, by simpa using hMem⟩
    · cases h
  · rename_i op hNotPush hOp
    cases h
    obtain rfl := Opcode.index_of_ofIndex? hOp
    have hOther : op ≠ .push := by
      rintro rfl
      exact hNotPush rfl
    rw [factors_ofOpcode hOther, Except.ok.injEq] at hFactors
    subst hFactors
    simpa using hf

/-- A record is read from its own factors, unless they are folded into one. -/
theorem mem_of_interpret (h : interpret chunk logical = .ok r) (hPush : r ≠ .push 0)
    (hFactors : r.factors = .ok fs) : fs ⊆ logical := by
  unfold interpret at h
  split at h
  · cases h
    cases hFactors
    exact List.nil_subset _
  · split at h
    · rename_i hNoOpcode
      -- without an opcode, the payload is just the factors of the record
      have hRead := readFrom_of_interpretData h
      cases r with
      | instruction op operand =>
        rcases hRead with ⟨g, hg, hExponent⟩ | rfl
        · have hNot := List.filter_eq_nil_iff.mp hNoOpcode g hg
          simp [hExponent] at hNot
        · exact absurd (Except.ok.inj h).symm hPush
      | data v =>
        cases hFactors
        obtain rfl : logical = _ := hRead
        exact List.Subset.refl _
      | pair p v =>
        simp only [Record.factors] at hFactors
        split at hFactors
        · cases hFactors
        · cases hFactors
          rcases hRead with rfl | rfl
          · exact List.Subset.refl _
          · exact (List.Perm.swap _ _ _).subset
      | degenerate =>
        cases hFactors
        exact List.nil_subset _
    · rename_i opcode hOnly
      have hMem : opcode ∈ logical.filter (·.exponent == opcodeExponent) := by simp [hOnly]
      obtain ⟨hLogical, hExponent⟩ := List.mem_filter.mp hMem
      exact mem_of_interpretOpcode hLogical (by simpa using hExponent) h hFactors
    · cases h

end Reading

-- ---------------------------------------------------------------------------
-- A checksum of its own
-- ---------------------------------------------------------------------------

/-- A payload beside a checksum on an index of its own. No exponent of the payload is one of a
checksum, and a factor with a weight is either the only one or has an exponent of at most two. -/
structure Sealed (fs : List Factor) (s : Nat) : Prop where
  distinct : fs.Pairwise fun f g => f.index ≠ g.index
  own : ∀ f ∈ fs, f.index ≠ s
  small : ∀ f ∈ fs, f.exponent < checksumExponent
  numbered : ∀ f ∈ fs, f.index < primeCount
  index_lt : s < primeCount
  weight : weightXor fs = s
  shape : ∀ f ∈ fs, f.index = 0 ∨ f.exponent ≤ 2 ∨ s = f.index * f.exponent

section Sealing

variable {r : Record} {c s : Nat} {fs : List Factor}

/-- The index of the checksum is the exclusive or of the weights, and it is left to show that this
index and the payload are apart. -/
theorem Record.ChecksumFits.sealed_of (h : r.ChecksumFits c fs s)
    (hDistinct : fs.Pairwise fun f g => f.index ≠ g.index)
    (hSmall : ∀ f ∈ fs, f.exponent < checksumExponent)
    (hNumbered : ∀ f ∈ fs, f.index < primeCount)
    (hApart : weightXor fs = s → ∀ f ∈ fs,
      f.index ≠ s ∧ (f.index = 0 ∨ f.exponent ≤ 2 ∨ s = f.index * f.exponent)) : Sealed fs s := by
  have hPerm := perm_mergeFactors hDistinct
  have hIndex : checksumIndex (mergeFactors fs) = .ok (weightXor (mergeFactors fs)) := by
    apply checksumIndex_eq
    intro f hf
    have hMem := hPerm.mem_iff.mp hf
    calc f.index * f.exponent < primeCount * checksumExponent :=
          Nat.mul_lt_mul'' (hNumbered f hMem) (hSmall f hMem)
      _ < indexBound := by decide
  rw [h.index, weightXor_perm hPerm] at hIndex
  have hWeight : weightXor fs = s := (Except.ok.inj hIndex).symm
  exact ⟨hDistinct, fun f hf => (hApart hWeight f hf).1, hSmall, hNumbered, h.numbered, hWeight,
    fun f hf => (hApart hWeight f hf).2⟩

/-- A single factor away from index zero. -/
theorem sealed_one {i d : Nat} (h : r.ChecksumFits c [⟨i, d⟩] s) (hi : i < primeCount)
    (hPos : 0 < i) (hd : 1 < d ∧ d < checksumExponent) : Sealed [⟨i, d⟩] s := by
  refine h.sealed_of (List.pairwise_singleton _ _) (by simpa using hd.2) (by simpa using hi) ?_
  intro hWeight f hf
  rw [List.mem_singleton.mp hf]
  have hs : s = i * d := by
    rw [← hWeight, weightXor_cons, weightXor_nil, Nat.xor_zero]
    rfl
  have hLt : i * 1 < i * d := Nat.mul_lt_mul_of_pos_left hd.1 hPos
  refine ⟨?_, .inr (.inr hs)⟩
  show i ≠ s
  omega

/-- The push of an operand other than zero: its opcode weighs nothing. -/
theorem sealed_push {k : Nat} (hk : k < primeCount) (hPos : 0 < k)
    (h : r.ChecksumFits c [⟨Opcode.push.index, opcodeExponent⟩, ⟨k, operandExponent⟩] s) :
    Sealed [⟨Opcode.push.index, opcodeExponent⟩, ⟨k, operandExponent⟩] s := by
  refine h.sealed_of (List.pairwise_pair.mpr hPos.ne) ?_ (payload_push hk).numbered ?_
  · simp [opcodeExponent, operandExponent, checksumExponent]
  · intro hWeight f hf
    have hs : s = k * 5 := by
      rw [← hWeight, weightXor_cons, weightXor_cons, weightXor_nil, Nat.xor_zero]
      exact Nat.zero_xor _
    rcases List.mem_pair.mp hf with rfl | rfl
    · refine ⟨?_, .inl rfl⟩
      show 0 ≠ s
      omega
    · refine ⟨?_, .inr (.inr hs)⟩
      show k ≠ s
      omega

/-- A position with its value, both away from the checksum. -/
theorem sealed_pair {p v : Nat} (hNe : p ≠ v) (hp : p < primeCount) (hv : v < primeCount)
    (hPos : 0 < p) (hApart : v ≠ p ^^^ (2 * p))
    (h : r.ChecksumFits c [⟨p, positionExponent⟩, ⟨v, valueExponent⟩] s) :
    Sealed [⟨p, positionExponent⟩, ⟨v, valueExponent⟩] s := by
  refine h.sealed_of (List.pairwise_pair.mpr hNe) ?_ (payload_pair hNe hp hv).numbered ?_
  · simp [positionExponent, valueExponent, checksumExponent]
  · intro hWeight f hf
    have hs : s = p * 2 ^^^ v := by
      rw [← hWeight, weightXor_cons, weightXor_cons, weightXor_nil, Nat.xor_zero]
      show p * 2 ^^^ v * 1 = p * 2 ^^^ v
      rw [Nat.mul_one]
    obtain ⟨hPosition, hValue⟩ := pair_ne_checksum hPos hApart
    rw [hs]
    rcases List.mem_pair.mp hf with rfl | rfl
    · exact ⟨hPosition, .inr (.inl (Nat.le_refl 2))⟩
    · exact ⟨hValue, .inr (.inl (Nat.le_succ 1))⟩

/-- What is written with a checksum and without a correction has a checksum of its own, the push
of operand zero and the empty payload apart. -/
theorem Record.ChecksumFits.isSealed (h : r.ChecksumFits 0 fs s) (hWell : r.WellFormed)
    (hUnambiguous : r.Unambiguous 0) (hPush : r ≠ .push 0) (hSome : fs ≠ []) : Sealed fs s := by
  rcases hWell.cases with
    ⟨op, hOp, rfl⟩ | ⟨k, hk, rfl⟩ | ⟨v, hv, rfl⟩ | ⟨p, v, hNe, hp, hv, rfl⟩ | rfl
  · obtain rfl := Except.ok.inj ((factors_ofOpcode hOp).symm.trans h.factors)
    have hPos : 0 < op.index := by
      cases op <;> first | exact absurd rfl hOp | decide
    exact sealed_one h op.index_lt hPos (by decide)
  · obtain rfl := Except.ok.inj h.factors
    have hPos : 0 < k := by
      refine Nat.pos_of_ne_zero ?_
      rintro rfl
      exact hPush rfl
    exact sealed_push hk hPos h
  · obtain rfl := Except.ok.inj h.factors
    exact sealed_one h hv hUnambiguous.1 (by decide)
  · obtain ⟨hPos, hApart, -⟩ := hUnambiguous
    obtain rfl := Except.ok.inj ((payload_pair hNe hp hv).factors.symm.trans h.factors)
    exact sealed_pair hNe hp hv hPos hApart h
  · exact absurd (Except.ok.inj h.factors).symm hSome

end Sealing

-- ---------------------------------------------------------------------------
-- One exponent altered
-- ---------------------------------------------------------------------------

/-- The chunk with another exponent on the prime of one of its factors. -/
noncomputable def altered (c : Chunk) (f : Factor) (e : Nat) : Chunk :=
  c / primeOf f.index ^ f.exponent * primeOf f.index ^ e

/-- The factors of the altered chunk, the checksum first. -/
def alteredFactors (fs : List Factor) (s : Nat) (f : Factor) (e : Nat) : List Factor :=
  ⟨s, checksumExponent⟩ :: ⟨f.index, e⟩ :: fs.erase f

section Altering

variable {fs raw : List Factor} {s e : Nat} {f : Factor}

theorem altered_eq (hf : f ∈ fs) :
    altered (checksummedNumber fs s 0) f e = factorsNumber (alteredFactors fs s f e) := by
  have hPower : 0 < primeOf f.index ^ f.exponent := Nat.pow_pos (primeOf_prime f.index).pos
  have hNumber : checksummedNumber fs s 0 = primeOf f.index ^ f.exponent *
      factorsNumber (⟨s, checksumExponent⟩ :: fs.erase f) := by
    have hPerm : (⟨s, checksumExponent⟩ :: fs).Perm (f :: ⟨s, checksumExponent⟩ :: fs.erase f) :=
      ((List.perm_cons_erase hf).cons _).trans (.swap _ _ _)
    exact (factorsNumber_perm hPerm).trans (factorsNumber_cons _ _)
  rw [altered, hNumber, Nat.mul_div_cancel_left _ hPower, alteredFactors, factorsNumber_cons,
    factorsNumber_cons, factorsNumber_cons, Nat.mul_assoc, Nat.mul_comm (factorsNumber _)]
  rfl

/-- The other factors of the payload are away from the altered one. -/
theorem Sealed.index_ne_of_mem_erase (h : Sealed fs s) (hf : f ∈ fs) :
    ∀ g ∈ fs.erase f, f.index ≠ g.index := by
  have hPairwise : (f :: fs.erase f).Pairwise fun f g => f.index ≠ g.index :=
    (List.perm_cons_erase hf).pairwise h.distinct fun hNe => hNe.symm
  exact (List.pairwise_cons.mp hPairwise).1

theorem Sealed.altered_distinct (h : Sealed fs s) (hf : f ∈ fs) (e : Nat) :
    (alteredFactors fs s f e).Pairwise fun f g => f.index ≠ g.index := by
  refine List.pairwise_cons.mpr ⟨?_, List.pairwise_cons.mpr ⟨?_, ?_⟩⟩
  · intro g hg
    rcases List.mem_cons.mp hg with rfl | hg
    · exact (h.own f hf).symm
    · exact (h.own g (List.mem_of_mem_erase hg)).symm
  · exact h.index_ne_of_mem_erase hf
  · exact h.distinct.sublist List.erase_sublist

theorem Sealed.altered_numbered (h : Sealed fs s) (hf : f ∈ fs) (e : Nat) :
    ∀ g ∈ alteredFactors fs s f e, g.Numbered := by
  intro g hg
  right
  rcases List.mem_cons.mp hg with rfl | hg
  · exact h.index_lt
  · rcases List.mem_cons.mp hg with rfl | hg
    · exact h.numbered f hf
    · exact h.numbered g (List.mem_of_mem_erase hg)

/-- The factors of an altered chunk, put in order. -/
structure Altered (fs : List Factor) (s : Nat) (f : Factor) (e : Nat) (raw : List Factor) :
    Prop where
  isSealed : Sealed fs s
  mem : f ∈ fs
  other : e ≠ f.exponent
  canonical : Canonical raw
  perm : raw.Perm ((alteredFactors fs s f e).filter fun g => g.exponent ≠ 0)
  bounded : factorsNumber raw < chunkBound

namespace Altered

theorem mem_cases (h : Altered fs s f e raw) {g : Factor} (hg : g ∈ raw) :
    g = ⟨s, checksumExponent⟩ ∨ g = ⟨f.index, e⟩ ∨ g ∈ fs.erase f := by
  have hMem := (List.mem_filter.mp (h.perm.mem_iff.mp hg)).1
  rcases List.mem_cons.mp hMem with hChecksum | hMem
  · exact .inl hChecksum
  · exact .inr (List.mem_cons.mp hMem)

/-- The factor as it was is not among them. -/
theorem not_mem (h : Altered fs s f e raw) : f ∉ raw := by
  intro hMem
  rcases h.mem_cases hMem with hChecksum | hAltered | hRest
  · exact h.isSealed.own f h.mem (congrArg Factor.index hChecksum)
  · exact h.other (congrArg Factor.exponent hAltered).symm
  · exact h.isSealed.index_ne_of_mem_erase h.mem f hRest rfl

theorem checksum_mem (h : Altered fs s f e raw) : ⟨s, checksumExponent⟩ ∈ raw := by
  refine h.perm.mem_iff.mpr (List.mem_filter.mpr ⟨List.mem_cons_self, ?_⟩)
  simp [checksumExponent]

/-- The exclusive or of all weights, in terms of the checksum and of the altered factor. -/
theorem weight (h : Altered fs s f e raw) :
    weightXor raw = s * 6 ^^^ (f.index * e ^^^ (f.index * f.exponent ^^^ s)) := by
  rw [weightXor_perm h.perm, weightXor_filter, alteredFactors, weightXor_cons, weightXor_cons,
    weightXor_erase h.mem, h.isSealed.weight]
  rfl

/-- Either the checksum comes into question, or the altered factor does, if it has the lower
index. -/
theorem place (h : Altered fs s f e raw) :
    ChecksumPlace raw ⟨s, checksumExponent⟩ ∨
      (ChecksumPlace raw ⟨f.index, e⟩ ∧ f.index < s) := by
  have hChecksum : (⟨s, checksumExponent⟩ : Factor) ≠ foldedPush := by
    intro hEq
    have hExponent : 6 = 9 := congrArg Factor.exponent hEq
    omega
  have hRest : ∀ g ∈ fs.erase f, ¬ checksumExponent ≤ g.exponent := fun g hg =>
    Nat.not_le.mpr (h.isSealed.small g (List.mem_of_mem_erase hg))
  by_cases hTaken : checksumExponent ≤ e ∧ (⟨f.index, e⟩ : Factor) ≠ foldedPush ∧ f.index < s
  · obtain ⟨hHigh, hNotFolded, hLt⟩ := hTaken
    have hMem : (⟨f.index, e⟩ : Factor) ∈ raw := by
      refine h.perm.mem_iff.mpr (List.mem_filter.mpr ⟨by simp [alteredFactors], ?_⟩)
      simp only [checksumExponent] at hHigh
      simp only [ne_eq, decide_not, Bool.not_eq_true', decide_eq_false_iff_not]
      omega
    refine .inr ⟨⟨hMem, hHigh, hNotFolded, ?_⟩, hLt⟩
    intro g hg hgHigh _
    rcases h.mem_cases hg with rfl | rfl | hg
    · exact Nat.le_of_lt hLt
    · exact Nat.le_refl _
    · exact absurd hgHigh (hRest g hg)
  · refine .inl ⟨h.checksum_mem, Nat.le_refl _, hChecksum, ?_⟩
    intro g hg hgHigh hgNotFolded
    rcases h.mem_cases hg with rfl | rfl | hg
    · exact Nat.le_refl _
    · by_contra hLt
      exact hTaken ⟨hgHigh, hgNotFolded, Nat.lt_of_not_le hLt⟩
    · exact absurd hgHigh (hRest g hg)

/-- What is read does not contain the factor as it was, and away from index zero the mismatch is
seen. -/
theorem analysis (h : Altered fs s f e raw) :
    f ∉ (Analysis.ofFactors raw).logical ∧
      (1 ≤ f.index → Analysis.ofFactors raw = ⟨raw, raw, .mismatch⟩) := by
  have hMismatched : Analysis.ofFactors raw = ⟨raw, raw, .mismatch⟩ →
      f ∉ (Analysis.ofFactors raw).logical ∧
        (1 ≤ f.index → Analysis.ofFactors raw = ⟨raw, raw, .mismatch⟩) := by
    intro hEq
    rw [hEq]
    exact ⟨h.not_mem, fun _ => rfl⟩
  rcases h.place with hPlace | ⟨hPlace, hLt⟩
  · -- beside the checksum, only the altered weight has changed
    have hErase : weightXor (raw.erase ⟨s, checksumExponent⟩) =
        f.index * e ^^^ (f.index * f.exponent ^^^ s) := by
      rw [weightXor_erase h.checksum_mem, h.weight]
      exact Nat.xor_xor_cancel_left _ _
    rcases Nat.eq_zero_or_pos f.index with hZero | hPos
    · have hMatch : s = weightXor (raw.erase ⟨s, checksumExponent⟩) := by
        rw [hErase, hZero, Nat.zero_mul, Nat.zero_mul, Nat.zero_xor, Nat.zero_xor]
      rw [ofFactors_of_match h.canonical h.bounded hPlace hMatch]
      refine ⟨?_, fun hOne => by omega⟩
      show f ∉ withoutChecksum raw ⟨s, checksumExponent⟩
      rw [withoutChecksum, if_pos (Nat.sub_self _)]
      exact fun hMem => h.not_mem (List.mem_of_mem_erase hMem)
    · refine hMismatched (ofFactors_of_mismatch h.canonical h.bounded hPlace ?_)
      rw [hErase]
      intro hMatch
      have hSame : f.index * e = f.index * f.exponent := by
        have hCancel := hMatch.symm
        rw [← Nat.xor_assoc] at hCancel
        exact Nat.xor_eq_zero_iff.mp
          (Nat.xor_left_inj.mp (hCancel.trans (Nat.zero_xor s).symm))
      exact h.other (Nat.eq_of_mul_eq_mul_left hPos hSame)
  · refine hMismatched (ofFactors_of_mismatch h.canonical h.bounded hPlace ?_)
    rw [weightXor_erase hPlace.mem, h.weight]
    intro hMatch
    -- the altered weight cancels out, so it does not matter what became of the exponent
    have hEq : s ^^^ 6 * s = f.index ^^^ f.index * f.exponent := by
      have hRest : f.index = s * 6 ^^^ (f.index * f.exponent ^^^ s) := by
        have hCancel : f.index = f.index * e ^^^
            (f.index * e ^^^ (s * 6 ^^^ (f.index * f.exponent ^^^ s))) := by
          rw [Nat.xor_left_comm (f.index * e) (s * 6)]
          exact hMatch
        exact hCancel.trans (Nat.xor_xor_cancel_left _ _)
      calc s ^^^ 6 * s = (s * 6 ^^^ (f.index * f.exponent ^^^ s)) ^^^ f.index * f.exponent := by
            rw [Nat.mul_comm 6, Nat.xor_assoc, Nat.xor_comm _ s, Nat.xor_xor_cancel_right,
              Nat.xor_comm]
        _ = f.index ^^^ f.index * f.exponent := by rw [← hRest]
    exact xor_weights_ne hLt (h.isSealed.shape f h.mem) hEq

end Altered

end Altering

-- ---------------------------------------------------------------------------
-- The alteration is noticed
-- ---------------------------------------------------------------------------

/-- If a record was written with a checksum, the push of operand zero apart, and the exponent of one
of its factors is altered in the chunk, to zero or to anything that still makes a chunk, then the
record is not read back. If the index of the factor is not zero, the analysis reports the mismatch
and leaves the factors as they are. -/
theorem alteration_noticed {r : Record} {c : Chunk} {fs : List Factor} {f : Factor} {e : Nat}
    (hWritten : encodeChecksummed r 0 = .ok c) (hPush : r ≠ .push 0) (hFactors : r.factors = .ok fs)
    (hMem : f ∈ fs) (hOther : e ≠ f.exponent) (hBound : altered c f e < chunkBound) :
    decode (altered c f e) ≠ .ok r ∧
      (1 ≤ f.index → ∃ raw, analyze (altered c f e) = .ok ⟨raw, raw, .mismatch⟩) := by
  obtain ⟨payload, s, hFits, rfl, hDecode⟩ := fits_of_encodeChecksummed hWritten
  obtain rfl : payload = fs := Except.ok.inj (hFits.factors.symm.trans hFactors)
  obtain ⟨-, hWell, -⟩ := chunk_dvd_of_decode hDecode
  have hUnambiguous : r.Unambiguous 0 := (hFits.decode_eq_iff hWell).mp hDecode
  have hSealed : Sealed payload s :=
    hFits.isSealed hWell hUnambiguous hPush (List.ne_nil_of_mem hMem)
  have hCanonical := canonical_joinFactors (hSealed.altered_numbered hMem e)
  have hPerm := perm_joinFactors (hSealed.altered_distinct hMem e)
  rw [altered_eq hMem, ← factorsNumber_joinFactors] at hBound ⊢
  generalize joinFactors (alteredFactors payload s f e) = raw at hCanonical hPerm hBound ⊢
  have hAltered : Altered payload s f e raw := ⟨hSealed, hMem, hOther, hCanonical, hPerm, hBound⟩
  obtain ⟨hNotRead, hMismatch⟩ := hAltered.analysis
  constructor
  · intro hRead
    rw [hCanonical.decode_number] at hRead
    exact hNotRead (mem_of_interpret hRead hPush hFactors hMem)
  · intro hIndex
    refine ⟨raw, ?_⟩
    rw [analyze, if_neg (factorsNumber_pos raw).ne', indexedFactors_number hCanonical]
    exact congrArg Except.ok (hMismatch hIndex)

/-- The position one with the value zero has its checksum on index two. If the exponent of the
position becomes six, its factor is looked at before the checksum, and yet the mismatch is seen. -/
theorem alteration_noticed_position :
    encodeChecksummed (.pair 1 0) 0 = .ok (3 ^ 2 * 2 * 5 ^ 6) ∧ Record.pair 1 0 ≠ .push 0 ∧
      (Record.pair 1 0).factors = .ok [⟨1, 2⟩, ⟨0, 1⟩] ∧
      altered (3 ^ 2 * 2 * 5 ^ 6) ⟨1, 2⟩ 6 = 3 ^ 6 * 2 * 5 ^ 6 ∧
      decode (3 ^ 6 * 2 * 5 ^ 6) ≠ .ok (.pair 1 0) ∧
      ∃ raw, analyze (3 ^ 6 * 2 * 5 ^ 6) = .ok ⟨raw, raw, .mismatch⟩ := by
  have hWritten : encodeChecksummed (.pair 1 0) 0 = .ok (3 ^ 2 * 2 * 5 ^ 6) := by decide +kernel
  have hPush : Record.pair 1 0 ≠ .push 0 := by decide
  have hFactors : (Record.pair 1 0).factors = .ok [⟨1, 2⟩, ⟨0, 1⟩] := rfl
  have hAltered : altered (3 ^ 2 * 2 * 5 ^ 6) ⟨1, 2⟩ 6 = 3 ^ 6 * 2 * 5 ^ 6 := by
    simp [altered, primeOf, Nat.nth_prime_one_eq_three]
  have hBound : altered (3 ^ 2 * 2 * 5 ^ 6) ⟨1, 2⟩ 6 < chunkBound := by
    rw [hAltered]
    decide
  have hNoticed := alteration_noticed hWritten hPush hFactors List.mem_cons_self (by decide) hBound
  rw [hAltered] at hNoticed
  exact ⟨hWritten, hPush, hFactors, hAltered, hNoticed.1, hNoticed.2 (Nat.le_refl 1)⟩

end FactorMachine
