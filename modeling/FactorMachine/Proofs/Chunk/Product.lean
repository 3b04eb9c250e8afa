import FactorMachine.Chunk.Checksum
import FactorMachine.Proofs.Prime.Factorization

/-!
# FactorMachine — factors and their product

A list of factors stands for a number, the product of its prime powers. `encodeFactors`
computes that number when every index has a prime and the product is a chunk, and fails
otherwise. In the other direction, a list with ascending indices and positive exponents is
what a chunk's factorization gives back.

## Results

* `encodeFactors_eq_ok_iff` — which lists are written, and as which chunk.
* `indexedFactors_number`   — ascending factors are read back from their product.
-/

namespace FactorMachine

/-- The prime of index `i`, without a limit on the index. -/
noncomputable def primeOf (i : Nat) : Nat := Nat.nth Nat.Prime i

theorem primeOf_prime (i : Nat) : (primeOf i).Prime := Nat.prime_nth_prime i

theorem primeOf_strictMono : StrictMono primeOf := nth_prime_strictMono

theorem primeOf_le {i : Nat} (hi : i < primeCount) : primeOf i ≤ largestPrime := nth_prime_le hi

theorem indexOf_primeOf {i : Nat} (hi : i < primeCount) : indexOf (primeOf i) = .ok i := by
  rw [indexOf_prime (primeOf_prime i) (primeOf_le hi)]
  exact congrArg Except.ok (Nat.count_nth_of_infinite Nat.infinite_setOfPred_prime i)

namespace Factor

/-- The number that a factor stands for. -/
noncomputable def number (f : Factor) : Nat := primeOf f.index ^ f.exponent

theorem number_pos (f : Factor) : 0 < f.number := Nat.pow_pos (primeOf_prime f.index).pos

/-- A factor that a chunk can be written with: its prime is numbered, or it is not looked
at. -/
def Numbered (f : Factor) : Prop := f.exponent = 0 ∨ f.index < primeCount

end Factor

/-- The number that a list of factors stands for. -/
noncomputable def factorsNumber (fs : List Factor) : Nat := (fs.map Factor.number).prod

@[simp] theorem factorsNumber_nil : factorsNumber [] = 1 := rfl

@[simp] theorem factorsNumber_cons (f : Factor) (fs : List Factor) :
    factorsNumber (f :: fs) = f.number * factorsNumber fs := by
  simp [factorsNumber]

theorem factorsNumber_pos (fs : List Factor) : 0 < factorsNumber fs := by
  induction fs with
  | nil => exact Nat.one_pos
  | cons f fs ih =>
    rw [factorsNumber_cons]
    exact Nat.mul_pos f.number_pos ih

-- ---------------------------------------------------------------------------
-- Writing
-- ---------------------------------------------------------------------------

theorem boundedPower_eq (p e : Nat) (hp : 2 ≤ p) :
    boundedPower p e = if p ^ e < chunkBound then some (p ^ e) else none := by
  unfold boundedPower
  show (if e < 128 ∧ p ^ e < chunkBound then some (p ^ e) else none) = _
  by_cases hBound : p ^ e < chunkBound
  · have hExp : e < 128 := by
      have hGrow : 2 ^ e ≤ p ^ e := Nat.pow_le_pow_left hp e
      have hLt : 2 ^ e < 2 ^ 128 := Nat.lt_of_le_of_lt hGrow hBound
      exact (Nat.pow_lt_pow_iff_right (by omega)).mp hLt
    rw [if_pos ⟨hExp, hBound⟩, if_pos hBound]
  · rw [if_neg (fun h => hBound h.2), if_neg hBound]

/-- One factor more: its prime must be numbered and the product must stay a chunk. -/
theorem mulFactor_eq_ok_iff {product c : Chunk} {f : Factor} (hPos : 0 < product)
    (hProduct : product < chunkBound) :
    mulFactor product f = .ok c ↔ f.Numbered ∧ product * f.number = c ∧ c < chunkBound := by
  unfold mulFactor Factor.Numbered Factor.number
  by_cases hZero : f.exponent = 0
  · -- the prime of a factor with exponent zero is not looked at
    rw [if_pos hZero, hZero, pow_zero, mul_one, Except.ok.injEq]
    constructor
    · rintro rfl
      exact ⟨.inl rfl, rfl, hProduct⟩
    · rintro ⟨-, rfl, -⟩
      rfl
  · rw [if_neg hZero]
    rcases Nat.lt_or_ge f.index primeCount with hIndex | hIndex
    · have hPrime : primeAt f.index = .ok (primeOf f.index) := primeAt_of_lt hIndex
      rw [hPrime]
      dsimp only
      rw [boundedPower_eq _ _ (primeOf_prime f.index).two_le]
      generalize primeOf f.index ^ f.exponent = power
      by_cases hPower : power < chunkBound
      · rw [if_pos hPower]
        by_cases hBound : product * power < chunkBound
        · simp only [if_pos hBound, Except.ok.injEq]
          constructor
          · rintro rfl
            exact ⟨.inr hIndex, rfl, hBound⟩
          · rintro ⟨-, rfl, -⟩
            rfl
        · simp only [if_neg hBound, reduceCtorEq, false_iff]
          rintro ⟨-, rfl, hc⟩
          exact hBound hc
      · -- the product is at least the power, so it is no chunk either
        simp only [if_neg hPower, reduceCtorEq, false_iff]
        rintro ⟨-, rfl, hc⟩
        exact hPower (Nat.lt_of_le_of_lt (Nat.le_mul_of_pos_left power hPos) hc)
    · -- an index without a prime is an error as soon as it counts
      rw [primeAt_of_le hIndex]
      simp only [reduceCtorEq, false_iff]
      rintro ⟨hZero' | hLt, -⟩
      · exact hZero hZero'
      · omega

theorem foldlM_mulFactor_eq_ok_iff (fs : List Factor) {product c : Chunk} (hPos : 0 < product)
    (hProduct : product < chunkBound) :
    fs.foldlM mulFactor product = .ok c ↔
      (∀ f ∈ fs, f.Numbered) ∧ product * factorsNumber fs = c ∧ c < chunkBound := by
  -- by induction on the factors that are left, over the product of those before them
  induction fs generalizing product with
  | nil =>
    show Except.ok product = .ok c ↔ _
    rw [factorsNumber_nil, mul_one, Except.ok.injEq]
    constructor
    · rintro rfl
      exact ⟨by simp, rfl, hProduct⟩
    · rintro ⟨-, rfl, -⟩
      rfl
  | cons f fs ih =>
    rw [List.foldlM_cons, factorsNumber_cons, ← mul_assoc]
    have hNumber := f.number_pos
    have hNext : 0 < product * f.number := Nat.mul_pos hPos hNumber
    constructor
    · intro hEq
      -- the first factor went through, and the rest starts from its product
      cases hFirst : mulFactor product f with
      | error e =>
        rw [hFirst] at hEq
        cases hEq
      | ok middle =>
        obtain ⟨hNumbered, rfl, hMiddle⟩ := (mulFactor_eq_ok_iff hPos hProduct).mp hFirst
        rw [hFirst] at hEq
        obtain ⟨hRest, hValue, hBound⟩ := (ih hNext hMiddle).mp hEq
        refine ⟨?_, hValue, hBound⟩
        intro g hg
        rcases List.mem_cons.mp hg with rfl | hg
        · exact hNumbered
        · exact hRest g hg
    · rintro ⟨hNumbered, hValue, hBound⟩
      -- a partial product is at most the whole one
      have hLe : product * f.number ≤ product * f.number * factorsNumber fs :=
        Nat.le_mul_of_pos_right _ (factorsNumber_pos fs)
      have hMiddle : product * f.number < chunkBound := Nat.lt_of_le_of_lt hLe (hValue ▸ hBound)
      have hFirst := (mulFactor_eq_ok_iff hPos hProduct).mpr
        ⟨hNumbered f (by simp), rfl, hMiddle⟩
      rw [hFirst]
      exact (ih hNext hMiddle).mpr ⟨fun g hg => hNumbered g (by simp [hg]), hValue, hBound⟩

/-- A list of factors is written as its product when every index that counts has a prime and
the product is a chunk. -/
theorem encodeFactors_eq_ok_iff {fs : List Factor} {c : Chunk} :
    encodeFactors fs = .ok c ↔
      (∀ f ∈ fs, f.Numbered) ∧ factorsNumber fs = c ∧ c < chunkBound := by
  rw [encodeFactors, foldlM_mulFactor_eq_ok_iff fs Nat.one_pos (by decide), one_mul]

-- ---------------------------------------------------------------------------
-- Reading
-- ---------------------------------------------------------------------------

/-- Factors as a factorization lists them: ascending numbered indices, positive exponents. -/
structure Canonical (fs : List Factor) : Prop where
  ascending : fs.Pairwise fun f g => f.index < g.index
  pos : ∀ f ∈ fs, 0 < f.exponent
  numbered : ∀ f ∈ fs, f.index < primeCount

/-- The prime and the exponent of a factor. -/
noncomputable def Factor.primePower (f : Factor) : Nat × Nat := (primeOf f.index, f.exponent)

theorem Canonical.isFactorization {fs : List Factor} (h : Canonical fs) :
    IsFactorization (factorsNumber fs) (fs.map Factor.primePower) where
  prime g hg := by
    obtain ⟨f, -, rfl⟩ := List.mem_map.mp hg
    exact primeOf_prime f.index
  pos g hg := by
    obtain ⟨f, hf, rfl⟩ := List.mem_map.mp hg
    exact h.pos f hf
  ascending := List.pairwise_map.mpr
    (h.ascending.imp fun {f g} hLt => primeOf_strictMono hLt)
  product := by
    rw [powerProduct, List.map_map]
    rfl

/-- The factorization of the product of ascending factors. -/
theorem factorize_number {fs : List Factor} (h : Canonical fs) :
    factorize (factorsNumber fs) = .ok (fs.map Factor.primePower) := by
  refine factorize_eq_ok_iff.mpr ⟨h.isFactorization, ?_⟩
  intro g hg
  obtain ⟨f, hf, rfl⟩ := List.mem_map.mp hg
  exact primeOf_le (h.numbered f hf)

theorem mapM_indexOf {fs : List Factor} (hNumbered : ∀ f ∈ fs, f.index < primeCount) :
    ((fs.map Factor.primePower).mapM fun ((p, e) : Nat × Nat) =>
      (do return ⟨← indexOf p, e⟩ : Except PrimeError Factor)) = .ok fs := by
  induction fs with
  | nil => rfl
  | cons f fs ih =>
    have hFirst := indexOf_primeOf (hNumbered f (by simp))
    have hRest := ih fun g hg => hNumbered g (by simp [hg])
    rw [List.map_cons, List.mapM_cons, hRest]
    simp only [Factor.primePower, hFirst]
    rfl

/-- Ascending factors are read back from their product. -/
theorem indexedFactors_number {fs : List Factor} (h : Canonical fs) :
    indexedFactors (factorsNumber fs) = .ok fs := by
  rw [indexedFactors, factorize_number h]
  exact mapM_indexOf h.numbered

end FactorMachine
