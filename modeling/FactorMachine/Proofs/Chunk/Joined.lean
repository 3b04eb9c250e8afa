import FactorMachine.Proofs.Chunk.Least

/-!
# FactorMachine — factors in any order and number

A list of factors may name an index more than once, in any order, and it may hold factors of
exponent zero. Whether it can be written, and as which chunk, depends on none of that: the
product is computed step by step and given up at the first step that is no chunk, but a partial
product is never greater than the whole one, so no order of the factors is given up without
need.

What a list of factors comes down to is said by `Joins`: every index with the sum of its
exponents, ascending, and without the indices whose exponents add up to zero.

## Results

* `toOption_encodeFactors_congr` — lists with one product are written as one chunk.
* `encodeFactors_exact`          — the bounded product, in any order and however it is split.
* `joins_joinFactors`            — what a list comes down to, index by index.
* `canonical_joinFactors`, `factorsNumber_joinFactors` — it is what the product is factorized into.
* `perm_joinFactors`             — without repeated indices it is the list itself, put in order.
-/

namespace FactorMachine

-- ---------------------------------------------------------------------------
-- Lists of one product
-- ---------------------------------------------------------------------------

section Product

variable {fs gs : List Factor}

theorem factorsNumber_append (fs gs : List Factor) :
    factorsNumber (fs ++ gs) = factorsNumber fs * factorsNumber gs := by
  unfold factorsNumber
  rw [List.map_append, List.prod_append]

/-- Whether a list is written depends on nothing but its product and the indices that count. -/
theorem toOption_encodeFactors_congr
    (hNumbered : (∀ f ∈ fs, f.Numbered) ↔ ∀ f ∈ gs, f.Numbered)
    (hNumber : factorsNumber fs = factorsNumber gs) :
    (encodeFactors fs).toOption = (encodeFactors gs).toOption := by
  apply Option.ext
  intro c
  rw [toOption_eq_some_iff, toOption_eq_some_iff, encodeFactors_eq_ok_iff, encodeFactors_eq_ok_iff,
    hNumbered, hNumber]

/-- A factor of exponent zero is one. -/
theorem factorsNumber_filter (fs : List Factor) :
    factorsNumber (fs.filter fun f => f.exponent ≠ 0) = factorsNumber fs := by
  induction fs with
  | nil => rfl
  | cons f fs ih =>
    rw [List.filter_cons, factorsNumber_cons]
    by_cases hZero : f.exponent = 0
    · rw [if_neg (by simpa using hZero), ih, Factor.number, hZero, pow_zero, one_mul]
    · rw [if_pos (by simpa using hZero), factorsNumber_cons, ih]

theorem numbered_filter (fs : List Factor) :
    (∀ f ∈ fs.filter fun f => f.exponent ≠ 0, f.Numbered) ↔ ∀ f ∈ fs, f.Numbered := by
  constructor
  · intro hNumbered f hf
    by_cases hZero : f.exponent = 0
    · exact .inl hZero
    · exact hNumbered f (List.mem_filter.mpr ⟨hf, by simpa using hZero⟩)
  · intro hNumbered f hf
    exact hNumbered f (List.mem_filter.mp hf).1

/-- Where the joined factor counts, one of the two did. -/
theorem numbered_add {i d e : Nat} :
    Factor.Numbered ⟨i, d + e⟩ ↔ Factor.Numbered ⟨i, d⟩ ∧ Factor.Numbered ⟨i, e⟩ := by
  unfold Factor.Numbered
  dsimp only
  omega

theorem numbered_mergeFactor (f : Factor) (fs : List Factor) :
    (∀ g ∈ mergeFactor f fs, g.Numbered) ↔ f.Numbered ∧ ∀ g ∈ fs, g.Numbered := by
  induction fs with
  | nil => simp [mergeFactor]
  | cons g rest ih =>
    unfold mergeFactor
    split
    · exact List.forall_mem_cons
    · split
      · rename_i hEq
        have hJoined : Factor.Numbered ⟨g.index, g.exponent + f.exponent⟩ ↔
            f.Numbered ∧ g.Numbered := by
          rw [numbered_add, and_comm]
          exact and_congr_left fun _ => by rw [← hEq]
        rw [List.forall_mem_cons, List.forall_mem_cons, hJoined, and_assoc]
      · rw [List.forall_mem_cons, List.forall_mem_cons, ih, and_left_comm]

theorem numbered_mergeFactors (fs : List Factor) :
    (∀ f ∈ mergeFactors fs, f.Numbered) ↔ ∀ f ∈ fs, f.Numbered := by
  have hFold : ∀ merged : List Factor,
      (∀ g ∈ fs.foldl (fun merged f => mergeFactor f merged) merged, g.Numbered) ↔
        (∀ g ∈ merged, g.Numbered) ∧ ∀ f ∈ fs, f.Numbered := by
    induction fs with
    | nil =>
      intro merged
      simp
    | cons f fs ih =>
      intro merged
      rw [List.foldl_cons, ih, numbered_mergeFactor, List.forall_mem_cons]
      tauto
  rw [mergeFactors, hFold]
  simp

end Product

-- ---------------------------------------------------------------------------
-- The bounded product
-- ---------------------------------------------------------------------------

/-- **Factors are written as their exact product, and only the product decides.** They are written
where every index that counts has a prime and the product is a chunk. So it makes no difference in
which order they stand, whether two of one index are joined, or whether factors of exponent zero
are left out; and two lists in a row are written as the product of what they are written as. -/
theorem encodeFactors_exact (fs : List Factor) :
    (∀ c, encodeFactors fs = .ok c ↔
      (∀ f ∈ fs, f.exponent ≠ 0 → f.index < primeCount) ∧ factorsNumber fs < chunkBound ∧
        c = factorsNumber fs) ∧
    (∀ gs, fs.Perm gs → (encodeFactors gs).toOption = (encodeFactors fs).toOption) ∧
    (encodeFactors (mergeFactors fs)).toOption = (encodeFactors fs).toOption ∧
    (∀ before after i d e, fs = before ++ ⟨i, d⟩ :: ⟨i, e⟩ :: after →
      (encodeFactors (before ++ ⟨i, d + e⟩ :: after)).toOption = (encodeFactors fs).toOption) ∧
    (encodeFactors (fs.filter fun f => f.exponent ≠ 0)).toOption = (encodeFactors fs).toOption ∧
    ∀ gs c, encodeFactors (fs ++ gs) = .ok c ↔
      ∃ a b, encodeFactors fs = .ok a ∧ encodeFactors gs = .ok b ∧ c = a * b ∧ c < chunkBound := by
  refine ⟨?_, ?_, ?_, ?_, ?_, ?_⟩
  · intro c
    have hNumbered : (∀ f ∈ fs, f.Numbered) ↔ ∀ f ∈ fs, f.exponent ≠ 0 → f.index < primeCount :=
      forall₂_congr fun f _ => or_iff_not_imp_left
    rw [encodeFactors_eq_ok_iff, hNumbered]
    constructor
    · rintro ⟨hIndices, rfl, hBound⟩
      exact ⟨hIndices, hBound, rfl⟩
    · rintro ⟨hIndices, hBound, rfl⟩
      exact ⟨hIndices, rfl, hBound⟩
  · intro gs hPerm
    refine toOption_encodeFactors_congr ?_ (factorsNumber_perm hPerm.symm)
    exact forall_congr' fun f => by rw [hPerm.mem_iff]
  · exact toOption_encodeFactors_congr (numbered_mergeFactors fs) (number_mergeFactors fs)
  · rintro before after i d e rfl
    refine toOption_encodeFactors_congr ?_ ?_
    · simp only [List.forall_mem_append, List.forall_mem_cons, numbered_add, and_assoc]
    · simp only [factorsNumber_append, factorsNumber_cons, Factor.number, pow_add, Nat.mul_assoc]
  · exact toOption_encodeFactors_congr (numbered_filter fs) (factorsNumber_filter fs)
  · intro gs c
    constructor
    · intro hWritten
      obtain ⟨hNumbered, rfl, hBound⟩ := encodeFactors_eq_ok_iff.mp hWritten
      rw [List.forall_mem_append] at hNumbered
      rw [factorsNumber_append] at hBound ⊢
      -- neither product is greater than the two together
      have hFirst : factorsNumber fs < chunkBound :=
        Nat.lt_of_le_of_lt (Nat.le_mul_of_pos_right _ (factorsNumber_pos gs)) hBound
      have hSecond : factorsNumber gs < chunkBound :=
        Nat.lt_of_le_of_lt (Nat.le_mul_of_pos_left _ (factorsNumber_pos fs)) hBound
      exact ⟨_, _, encodeFactors_eq_ok_iff.mpr ⟨hNumbered.1, rfl, hFirst⟩,
        encodeFactors_eq_ok_iff.mpr ⟨hNumbered.2, rfl, hSecond⟩, rfl, hBound⟩
    · rintro ⟨a, b, hFirst, hSecond, rfl, hBound⟩
      obtain ⟨hNumbered, rfl, -⟩ := encodeFactors_eq_ok_iff.mp hFirst
      obtain ⟨hNumbered', rfl, -⟩ := encodeFactors_eq_ok_iff.mp hSecond
      exact encodeFactors_eq_ok_iff.mpr
        ⟨List.forall_mem_append.mpr ⟨hNumbered, hNumbered'⟩, factorsNumber_append fs gs, hBound⟩

/-- The greatest power of two that is a chunk, in three parts of which one does not count: the
order of the parts and the joining of the other two change nothing, and one more two is too
much. -/
theorem encodeFactors_exact_edge :
    encodeFactors [⟨0, 100⟩, ⟨primeCount, 0⟩, ⟨0, 27⟩] = .ok (2 ^ 127) ∧
      [⟨0, 100⟩, ⟨primeCount, 0⟩, ⟨0, 27⟩].Perm [⟨primeCount, 0⟩, ⟨0, 100⟩, (⟨0, 27⟩ : Factor)] ∧
      (encodeFactors [⟨primeCount, 0⟩, ⟨0, 100⟩, ⟨0, 27⟩]).toOption = some (2 ^ 127) ∧
      (encodeFactors [⟨primeCount, 0⟩, ⟨0, 127⟩]).toOption = some (2 ^ 127) ∧
      ∀ c, encodeFactors ([⟨primeCount, 0⟩, ⟨0, 127⟩] ++ [⟨0, 1⟩]) ≠ .ok c := by
  have hFirst : encodeFactors [⟨0, 100⟩, ⟨primeCount, 0⟩, ⟨0, 27⟩] = .ok (2 ^ 127) := by
    decide +kernel
  have hPerm : [⟨0, 100⟩, ⟨primeCount, 0⟩, ⟨0, 27⟩].Perm
      [⟨primeCount, 0⟩, ⟨0, 100⟩, (⟨0, 27⟩ : Factor)] := .swap _ _ _
  have hMoved : (encodeFactors [⟨primeCount, 0⟩, ⟨0, 100⟩, ⟨0, 27⟩]).toOption = some (2 ^ 127) := by
    rw [(encodeFactors_exact _).2.1 _ hPerm, hFirst]
    rfl
  have hJoined : (encodeFactors [⟨primeCount, 0⟩, ⟨0, 127⟩]).toOption = some (2 ^ 127) := by
    rw [← hMoved]
    exact (encodeFactors_exact _).2.2.2.1 [⟨primeCount, 0⟩] [] 0 100 27 rfl
  refine ⟨hFirst, hPerm, hMoved, hJoined, ?_⟩
  intro c hWritten
  obtain ⟨a, b, hA, hB, rfl, hBound⟩ := ((encodeFactors_exact _).2.2.2.2.2 _ c).mp hWritten
  have hTwo : encodeFactors [⟨0, 1⟩] = .ok 2 := by decide +kernel
  rw [hTwo, Except.ok.injEq] at hB
  rw [toOption_eq_some_iff.mp hJoined, Except.ok.injEq] at hA
  rw [← hA, ← hB] at hBound
  exact absurd hBound (by decide)

-- ---------------------------------------------------------------------------
-- What a list comes down to
-- ---------------------------------------------------------------------------

/-- The sum of the exponents that a list has for one index. -/
def totalExponent (fs : List Factor) (i : Nat) : Nat :=
  ((fs.filter fun f => f.index = i).map Factor.exponent).sum

/-- A list comes down to one factor for each index whose exponents add up to more than zero, in
ascending order. -/
structure Joins (fs joined : List Factor) : Prop where
  ascending : joined.Pairwise fun f g => f.index < g.index
  mem_iff : ∀ f, f ∈ joined ↔ f.exponent = totalExponent fs f.index ∧ f.exponent ≠ 0

@[simp] theorem totalExponent_nil (i : Nat) : totalExponent [] i = 0 := rfl

@[simp] theorem totalExponent_cons (f : Factor) (fs : List Factor) (i : Nat) :
    totalExponent (f :: fs) i = (if f.index = i then f.exponent else 0) + totalExponent fs i := by
  unfold totalExponent
  rw [List.filter_cons]
  by_cases hIndex : f.index = i
  · simp [hIndex]
  · simp [hIndex]

theorem totalExponent_mergeFactor (f : Factor) (fs : List Factor) (i : Nat) :
    totalExponent (mergeFactor f fs) i = totalExponent (f :: fs) i := by
  induction fs with
  | nil => rfl
  | cons g rest ih =>
    unfold mergeFactor
    split
    · rfl
    · split
      · rename_i hEq
        simp only [totalExponent_cons, hEq]
        split <;> omega
      · rw [totalExponent_cons, ih]
        simp only [totalExponent_cons]
        omega

theorem totalExponent_mergeFactors (fs : List Factor) (i : Nat) :
    totalExponent (mergeFactors fs) i = totalExponent fs i := by
  have hFold : ∀ merged : List Factor,
      totalExponent (fs.foldl (fun merged f => mergeFactor f merged) merged) i =
        totalExponent merged i + totalExponent fs i := by
    induction fs with
    | nil =>
      intro merged
      rfl
    | cons f fs ih =>
      intro merged
      rw [List.foldl_cons, ih, totalExponent_mergeFactor, totalExponent_cons, totalExponent_cons]
      omega
  rw [mergeFactors, hFold]
  exact Nat.zero_add _

theorem totalExponent_filter (fs : List Factor) (i : Nat) :
    totalExponent (fs.filter fun f => f.exponent ≠ 0) i = totalExponent fs i := by
  induction fs with
  | nil => rfl
  | cons f fs ih =>
    rw [List.filter_cons, totalExponent_cons]
    by_cases hZero : f.exponent = 0
    · rw [if_neg (by simpa using hZero), ih, hZero, ite_self, Nat.zero_add]
    · rw [if_pos (by simpa using hZero), totalExponent_cons, ih]

/-- In a list without repeated indices each factor has all there is of its index. -/
theorem mem_iff_totalExponent {fs : List Factor}
    (hAscending : fs.Pairwise fun f g => f.index < g.index) (hPos : ∀ f ∈ fs, 0 < f.exponent)
    (f : Factor) : f ∈ fs ↔ f.exponent = totalExponent fs f.index ∧ f.exponent ≠ 0 := by
  induction fs with
  | nil =>
    rw [totalExponent_nil]
    simp
  | cons g rest ih =>
    obtain ⟨hBelow, hRest⟩ := List.pairwise_cons.mp hAscending
    obtain ⟨hPosHead, hPosRest⟩ := List.forall_mem_cons.mp hPos
    have ih := ih hRest hPosRest
    -- the rest has nothing of the first index
    have hOnce : totalExponent rest g.index = 0 := by
      unfold totalExponent
      have hNone : (rest.filter fun f => f.index = g.index) = [] := by
        refine List.filter_eq_nil_iff.mpr ?_
        intro h hh
        have := hBelow h hh
        simp only [decide_eq_true_eq]
        omega
      rw [hNone]
      rfl
    obtain ⟨i, e⟩ := f
    rw [List.mem_cons, totalExponent_cons]
    by_cases hIndex : g.index = i
    · subst hIndex
      have hNot : (⟨g.index, e⟩ : Factor) ∉ rest := by
        intro hMem
        have hLt : g.index < g.index := hBelow ⟨g.index, e⟩ hMem
        exact Nat.lt_irrefl _ hLt
      have hSame : (⟨g.index, e⟩ : Factor) = g ↔ e = g.exponent := by
        obtain ⟨j, d⟩ := g
        simp
      rw [if_pos rfl, hOnce, hSame]
      simp only [hNot, or_false]
      omega
    · have hOther : (⟨i, e⟩ : Factor) ≠ g := by
        rintro rfl
        exact hIndex rfl
      rw [if_neg hIndex, Nat.zero_add, ← ih]
      simp [hOther]

/-- The factors that count have positive exponents, and their indices have primes. -/
theorem counting_of_numbered {fs : List Factor} (hNumbered : ∀ f ∈ fs, f.Numbered) :
    (∀ f ∈ fs.filter fun f => f.exponent ≠ 0, 0 < f.exponent) ∧
      ∀ f ∈ fs.filter fun f => f.exponent ≠ 0, f.index < primeCount := by
  have hPos : ∀ f ∈ fs.filter fun f => f.exponent ≠ 0, 0 < f.exponent := by
    intro f hf
    have hNonzero := (List.mem_filter.mp hf).2
    exact Nat.pos_of_ne_zero (by simpa using hNonzero)
  refine ⟨hPos, ?_⟩
  intro f hf
  exact ((numbered_filter fs).mpr hNumbered f hf).resolve_left (hPos f hf).ne'

/-- What a list comes down to. -/
def joinFactors (fs : List Factor) : List Factor :=
  mergeFactors (fs.filter fun f => f.exponent ≠ 0)

/-- It is a list as a factorization gives it. -/
theorem canonical_joinFactors {fs : List Factor} (hNumbered : ∀ f ∈ fs, f.Numbered) :
    Canonical (joinFactors fs) := by
  obtain ⟨hPos, hIndices⟩ := counting_of_numbered hNumbered
  exact canonical_mergeFactors hPos hIndices

/-- The product is that of the list, so it is what this product is factorized into. -/
theorem factorsNumber_joinFactors (fs : List Factor) :
    factorsNumber (joinFactors fs) = factorsNumber fs := by
  rw [joinFactors, number_mergeFactors, factorsNumber_filter]

theorem joins_joinFactors {fs : List Factor} (hNumbered : ∀ f ∈ fs, f.Numbered) :
    Joins fs (joinFactors fs) := by
  have hCanonical := canonical_joinFactors hNumbered
  refine ⟨hCanonical.ascending, ?_⟩
  intro f
  rw [mem_iff_totalExponent hCanonical.ascending hCanonical.pos, joinFactors,
    totalExponent_mergeFactors, totalExponent_filter]

-- ---------------------------------------------------------------------------
-- Lists without repeated indices
-- ---------------------------------------------------------------------------

theorem perm_mergeFactor {f : Factor} {fs : List Factor} (hNew : ∀ g ∈ fs, g.index ≠ f.index) :
    (mergeFactor f fs).Perm (f :: fs) := by
  induction fs with
  | nil => exact .refl _
  | cons g rest ih =>
    obtain ⟨hHead, hRest⟩ := List.forall_mem_cons.mp hNew
    unfold mergeFactor
    split
    · exact .refl _
    · rw [if_neg hHead.symm]
      exact ((ih hRest).cons g).trans (.swap f g rest)

/-- Where no index is repeated, joining only puts the factors in order. -/
theorem perm_mergeFactors {fs : List Factor}
    (hDistinct : fs.Pairwise fun f g => f.index ≠ g.index) : (mergeFactors fs).Perm fs := by
  have hFold : ∀ merged : List Factor, (∀ f ∈ fs, ∀ g ∈ merged, g.index ≠ f.index) →
      (fs.foldl (fun merged f => mergeFactor f merged) merged).Perm (fs ++ merged) := by
    induction fs with
    | nil =>
      intro merged _
      exact .refl _
    | cons f fs ih =>
      intro merged hNew
      obtain ⟨hFirst, hRest⟩ := List.pairwise_cons.mp hDistinct
      obtain ⟨hNewFirst, hNewRest⟩ := List.forall_mem_cons.mp hNew
      have hStep := perm_mergeFactor hNewFirst
      have hApart : ∀ g ∈ fs, ∀ h ∈ mergeFactor f merged, h.index ≠ g.index := by
        intro g hg h hh
        rcases List.mem_cons.mp (hStep.mem_iff.mp hh) with rfl | hMerged
        · exact hFirst g hg
        · exact hNewRest g hg h hMerged
      have hMoved : (fs ++ mergeFactor f merged).Perm (f :: fs ++ merged) :=
        (hStep.append_left fs).trans List.perm_middle
      exact (ih hRest _ hApart).trans hMoved
  have hAll := hFold [] (by simp)
  rwa [List.append_nil] at hAll

/-- Factors without repeated indices come down to themselves, put in order and without those of
exponent zero. -/
theorem perm_joinFactors {fs : List Factor}
    (hDistinct : fs.Pairwise fun f g => f.index ≠ g.index) :
    (joinFactors fs).Perm (fs.filter fun f => f.exponent ≠ 0) :=
  perm_mergeFactors (hDistinct.filter _)

end FactorMachine
