import FactorMachine.Prime.Table
import FactorMachine.Proofs.Outcome
import FactorMachine.Proofs.Prime.Catalogue
import Mathlib.NumberTheory.Bertrand

/-!
# FactorMachine — a table of primes grows without gaps

A table that grew from the initial one holds the first primes, all of them up to its largest
entry, and its map leads from each of them back to its index and knows no other number: it is
`Sound`. Primes and map are written separately, and stay in step because no prime is added twice.

The next prime lies below twice the largest entry, by Bertrand's postulate. Every prime up to the
square root of a number below that bound is in the table, so dividing by the entries alone finds the
next prime, and the search for it ends in time.

In a sound table a number that is not found, and is no larger than the largest entry, is no prime
at all. Since the largest prime that is numbered is the last one that the table has room for, the
limit on the number of entries and the limit on values exclude the same primes.

No question makes a table smaller, whether it is answered or not.

## Results

* `LeadsBack.cons`                 — the map stays in step when the next prime is put in.
* `Sound.pushNext`                 — the next entry is the next prime.
* `extendToIndex_run`, `extendToValue_run` — how far a table grows.
* `primeAt_run`, `indexOf_run`     — answers that do not depend on the table.
* `grows_primeAt`, `grows_indexOf` — questions that leave what was there.
-/

namespace FactorMachine

theorem prime_largestPrime : largestPrime.Prime := (isPrime_iff _).mp (by decide +kernel)

/-- The last index belongs to the largest prime that is numbered. -/
theorem count_largestPrime : Nat.count Nat.Prime largestPrime + 1 = primeCount := by
  have hWhole := Sieve.count_primes
  rwa [Nat.count_succ, if_pos prime_largestPrime] at hWhole

theorem nth_last : Nat.nth Nat.Prime (primeCount - 1) = largestPrime := by
  rw [← count_largestPrime, Nat.add_sub_cancel, Nat.nth_count prime_largestPrime]

/-- No prime lies strictly between two of consecutive indices. -/
theorem not_prime_between {i q : Nat} (hAfter : Nat.nth Nat.Prime i < q)
    (hBefore : q < Nat.nth Nat.Prime (i + 1)) : ¬ q.Prime := by
  intro hq
  rw [← Nat.nth_count hq] at hAfter hBefore
  have hFirst := nth_prime_strictMono.lt_iff_lt.mp hAfter
  have hLast := nth_prime_strictMono.lt_iff_lt.mp hBefore
  omega

/-- The next prime is at most twice the one before. -/
theorem nth_prime_succ_le (i : Nat) : Nat.nth Nat.Prime (i + 1) ≤ 2 * Nat.nth Nat.Prime i := by
  obtain ⟨q, hq, hAfter, hLe⟩ :=
    Nat.bertrand (Nat.nth Nat.Prime i) (Nat.prime_nth_prime i).pos.ne'
  refine le_trans ?_ hLe
  by_contra hBefore
  exact not_prime_between hAfter (Nat.lt_of_not_le hBefore) hq

namespace PrimeTable

/-- A map leads from each of the first `n` primes to its index, and from no other number to any. -/
def LeadsBack (positions : List (Nat × Nat)) (n : Nat) : Prop :=
  ∀ v i, positions.lookup v = some i ↔ i < n ∧ Nat.nth Nat.Prime i = v

/-- The table holds the first primes, and at least the two that it starts with. Its map is in step
with them. -/
structure Sound (t : PrimeTable) : Prop where
  two_le : 2 ≤ t.size
  size_le : t.size ≤ primeCount
  entries : ∀ i, i < t.size → t.get? i = some (Nat.nth Nat.Prime i)
  positions : LeadsBack t.positions t.size

theorem leadsBack_nil : LeadsBack [] 0 := by
  intro v i
  exact iff_of_false nofun fun h => absurd h.1 (Nat.not_lt_zero i)

theorem LeadsBack.cons {positions : List (Nat × Nat)} {n : Nat} (h : LeadsBack positions n) :
    LeadsBack ((Nat.nth Nat.Prime n, n) :: positions) (n + 1) := by
  intro v i
  by_cases hNew : v = Nat.nth Nat.Prime n
  · -- no other index has the same prime
    rw [hNew, List.lookup_cons_self, Option.some.injEq]
    constructor
    · rintro rfl
      exact ⟨Nat.lt_succ_self n, rfl⟩
    · rintro ⟨-, hSame⟩
      exact (nth_prime_strictMono.injective hSame).symm
  · have hOld : ((Nat.nth Nat.Prime n, n) :: positions).lookup v = positions.lookup v := by
      simp only [List.lookup_cons, beq_eq_false_iff_ne.mpr hNew]
    rw [hOld, h]
    refine and_congr_left fun hSame => ?_
    have hOther : i ≠ n := by
      rintro rfl
      exact hNew hSame.symm
    omega

theorem sound_initial : Sound initial where
  two_le := le_refl 2
  size_le := by decide
  entries i hi := by
    obtain rfl | rfl : i = 0 ∨ i = 1 := by
      have hTwo : i < 2 := hi
      omega
    · rw [Nat.nth_prime_zero_eq_two]
      rfl
    · rw [Nat.nth_prime_one_eq_three]
      rfl
  positions := by
    have hBoth := leadsBack_nil.cons.cons
    rwa [Nat.nth_prime_zero_eq_two, Nat.nth_prime_one_eq_three] at hBoth

variable {t : PrimeTable} {v : Nat}

-- ---------------------------------------------------------------------------
-- Looking up
-- ---------------------------------------------------------------------------

theorem get?_of_le {i : Nat} (hi : t.size ≤ i) : t.get? i = none := Array.getElem?_eq_none hi

theorem Sound.largest_eq (h : Sound t) : t.largest = Nat.nth Nat.Prime (t.size - 1) := by
  have hTwo := h.two_le
  have hLast : t.primes.back? = some (Nat.nth Nat.Prime (t.size - 1)) := by
    rw [Array.back?_eq_getElem?]
    exact h.entries (t.size - 1) (by omega)
  rw [largest, hLast]
  rfl

theorem Sound.largest_le (h : Sound t) : t.largest ≤ largestPrime := by
  have hTwo := h.two_le
  have hSize := h.size_le
  rw [h.largest_eq]
  exact nth_prime_le (by omega)

/-- A table finds the primes up to its largest entry. -/
theorem Sound.position?_eq_some_iff (h : Sound t) {i : Nat} :
    t.position? v = some i ↔ i < t.size ∧ Nat.nth Nat.Prime i = v := h.positions v i

theorem Sound.position?_prime (h : Sound t) (hv : v.Prime) (hLe : v ≤ t.largest) :
    t.position? v = some (Nat.count Nat.Prime v) := by
  have hTwo := h.two_le
  rw [h.largest_eq, ← Nat.nth_count hv] at hLe
  have hIndex := nth_prime_strictMono.le_iff_le.mp hLe
  exact h.position?_eq_some_iff.mpr ⟨by omega, Nat.nth_count hv⟩

theorem Sound.position?_not_prime (h : Sound t) (hv : ¬ v.Prime) : t.position? v = none := by
  rw [Option.eq_none_iff_forall_ne_some]
  intro i hFound
  obtain ⟨-, rfl⟩ := h.position?_eq_some_iff.mp hFound
  exact hv (Nat.prime_nth_prime i)

/-- What is found is a prime, with its index. -/
theorem Sound.eq_count_of_position? (h : Sound t) {i : Nat} (hFound : t.position? v = some i) :
    v.Prime ∧ v ≤ largestPrime ∧ i = Nat.count Nat.Prime v := by
  obtain ⟨hi, rfl⟩ := h.position?_eq_some_iff.mp hFound
  refine ⟨Nat.prime_nth_prime i, nth_prime_le (Nat.lt_of_lt_of_le hi h.size_le), ?_⟩
  exact (Nat.count_nth_of_infinite Nat.infinite_setOfPred_prime i).symm

-- ---------------------------------------------------------------------------
-- The search for the next prime
-- ---------------------------------------------------------------------------

/-- Dividing by entries excludes the primes among them whose square is not too large. -/
theorem Sound.undividedBy_iff (h : Sound t) (c : Nat) {counter i : Nat}
    (hCounter : i + counter = t.size) : t.undividedBy c counter i = true ↔
      ∀ j, i ≤ j → j < t.size → Nat.nth Nat.Prime j * Nat.nth Nat.Prime j ≤ c →
        ¬ Nat.nth Nat.Prime j ∣ c := by
  induction counter generalizing i with
  | zero =>
    refine iff_of_true rfl ?_
    intro j hFirst hLast
    omega
  | succ counter ih =>
    have hEntry : t.primes[i]? = some (Nat.nth Nat.Prime i) := h.entries i (by omega)
    unfold undividedBy
    rw [hEntry]
    dsimp only
    split
    · rename_i hSquare
      -- every later entry has a larger square still
      refine iff_of_true rfl ?_
      intro j hFirst _ hLe
      have hGrow := nth_prime_strictMono.monotone hFirst
      have hSquares := Nat.mul_le_mul hGrow hGrow
      omega
    · rename_i hSquare
      split
      · rename_i hMod
        refine iff_of_false (by simp) ?_
        intro hAll
        exact hAll i (le_refl i) (by omega) (Nat.le_of_not_lt hSquare)
          (Nat.dvd_of_mod_eq_zero hMod)
      · rename_i hMod
        rw [ih (by omega)]
        constructor
        · intro hRest j hFirst hLast hLe
          rcases Nat.eq_or_lt_of_le hFirst with rfl | hLater
          · exact fun hDvd => hMod (Nat.mod_eq_zero_of_dvd hDvd)
          · exact hRest j hLater hLast hLe
        · intro hAll j hFirst
          exact hAll j (by omega)

/-- The entries decide primality of a number that is at most twice the largest of them. -/
theorem Sound.undividedBy_iff_prime (h : Sound t) {c : Nat} (hAfter : t.largest < c)
    (hBound : c ≤ 2 * t.largest) : t.undividedBy c t.size 0 = true ↔ c.Prime := by
  have hTwo := h.two_le
  rw [h.undividedBy_iff c (Nat.zero_add _)]
  constructor
  · intro hAll
    by_contra hComposite
    have hLarge : 2 ≤ t.largest := by
      rw [h.largest_eq]
      exact (Nat.prime_nth_prime _).two_le
    -- the least prime factor is no larger than the largest entry, so it is an entry
    have hFactor := Nat.minFac_prime (show c ≠ 1 by omega)
    have hSquare := Nat.minFac_sq_le_self (by omega) hComposite
    rw [pow_two] at hSquare
    have hLe : c.minFac ≤ t.largest := by
      by_contra hPast
      have hFirst := Nat.lt_of_not_le hPast
      have hGrow := Nat.mul_lt_mul_of_lt_of_le' hFirst hFirst.le (by omega)
      have hDouble := Nat.mul_le_mul_right t.largest hLarge
      omega
    rw [h.largest_eq, ← Nat.nth_count hFactor] at hLe
    have hIndex := nth_prime_strictMono.le_iff_le.mp hLe
    have hNot := hAll (Nat.count Nat.Prime c.minFac) (Nat.zero_le _) (by omega)
    rw [Nat.nth_count hFactor] at hNot
    exact hNot hSquare (Nat.minFac_dvd c)
  · intro hc j _ hj _ hDvd
    -- a prime that divides another one equals it, and is no entry
    have hSame := (Nat.prime_dvd_prime_iff_eq (Nat.prime_nth_prime j) hc).mp hDvd
    rw [h.largest_eq, ← hSame] at hAfter
    have hIndex := nth_prime_strictMono.lt_iff_lt.mp hAfter
    omega

/-- The search stops at the next prime. -/
theorem Sound.searchFrom_eq (h : Sound t) (counter c : Nat) (hAfter : t.largest < c)
    (hBefore : c ≤ Nat.nth Nat.Prime t.size)
    (hParity : c % 2 = Nat.nth Nat.Prime t.size % 2)
    (hCounter : Nat.nth Nat.Prime t.size ≤ c + 2 * counter) :
    t.searchFrom counter c = Nat.nth Nat.Prime t.size := by
  have hTwo := h.two_le
  have hSucc : t.size - 1 + 1 = t.size := by omega
  have hDouble := nth_prime_succ_le (t.size - 1)
  rw [hSucc, ← h.largest_eq] at hDouble
  induction counter generalizing c with
  | zero => exact Nat.le_antisymm hBefore hCounter
  | succ counter ih =>
    have hTest := h.undividedBy_iff_prime hAfter (by omega)
    unfold searchFrom
    rcases Nat.eq_or_lt_of_le hBefore with rfl | hLt
    · rw [if_pos (hTest.mpr (Nat.prime_nth_prime _))]
    · -- between the largest entry and the next prime there is none
      have hNot : ¬ c.Prime := by
        refine not_prime_between (i := t.size - 1) ?_ ?_
        · rwa [← h.largest_eq]
        · rwa [hSucc]
      rw [if_neg (mt hTest.mp hNot)]
      exact ih (c + 2) (by omega) (by omega) (by omega) (by omega)

/-- The next entry is the next prime. -/
theorem Sound.pushNext (h : Sound t) (hRoom : t.size < primeCount) :
    Sound t.pushNext ∧ t.pushNext.size = t.size + 1 := by
  have hTwo := h.two_le
  have hSucc : t.size - 1 + 1 = t.size := by omega
  have hOdd : ∀ i, 0 < i → Nat.nth Nat.Prime i % 2 = 1 := by
    intro i hi
    have hGrow := nth_prime_strictMono hi
    rw [Nat.nth_prime_zero_eq_two] at hGrow
    exact (Nat.prime_nth_prime i).mod_two_eq_one_iff_ne_two.mpr (by omega)
  have hNext : t.largest < Nat.nth Nat.Prime t.size := by
    rw [h.largest_eq]
    exact nth_prime_strictMono (by omega)
  have hLast := hOdd (t.size - 1) (by omega)
  have hNew := hOdd t.size (by omega)
  have hDouble := nth_prime_succ_le (t.size - 1)
  rw [hSucc] at hDouble
  rw [← h.largest_eq] at hDouble hLast
  have hSearch := h.searchFrom_eq t.largest (t.largest + 2) (by omega) (by omega) (by omega)
    (by omega)
  have hSize : t.pushNext.size = t.size + 1 := Array.size_push _
  refine ⟨⟨by omega, by omega, ?_, ?_⟩, hSize⟩
  · intro i hi
    show (t.primes.push (t.searchFrom t.largest (t.largest + 2)))[i]? = _
    rw [hSearch, Array.getElem?_push]
    split
    · rename_i hHere
      rw [hHere]
      rfl
    · rename_i hOther
      have hNe : i ≠ t.size := hOther
      exact h.entries i (by omega)
  · show LeadsBack ((t.searchFrom t.largest (t.largest + 2), t.size) :: t.positions) _
    rw [hSearch, hSize]
    exact h.positions.cons

theorem Sound.pushNexts (h : Sound t) {n : Nat} (hRoom : t.size + n ≤ primeCount) :
    Sound (pushNexts n t) ∧ (PrimeTable.pushNexts n t).size = t.size + n := by
  induction n generalizing t with
  | zero => exact ⟨h, rfl⟩
  | succ n ih =>
    obtain ⟨hNext, hSize⟩ := h.pushNext (by omega)
    obtain ⟨hSound, hAll⟩ := ih hNext (by omega)
    refine ⟨hSound, ?_⟩
    rw [PrimeTable.pushNexts, hAll, hSize]
    omega

/-- A table grows until its largest entry is at least `v`, or until there is no room left. -/
theorem Sound.pushUntil (h : Sound t) (room : Nat) (hRoom : t.size + room ≤ primeCount) :
    Sound (pushUntil v room t) ∧ (v ≤ (PrimeTable.pushUntil v room t).largest ∨
      (PrimeTable.pushUntil v room t).size = t.size + room) := by
  induction room generalizing t with
  | zero => exact ⟨h, .inr rfl⟩
  | succ room ih =>
    unfold PrimeTable.pushUntil
    split
    · obtain ⟨hNext, hSize⟩ := h.pushNext (by omega)
      obtain ⟨hSound, hEnd⟩ := ih hNext (by omega)
      refine ⟨hSound, hEnd.imp_right ?_⟩
      intro hFull
      rw [hFull, hSize]
      omega
    · rename_i hReached
      exact ⟨h, .inl (Nat.le_of_not_lt hReached)⟩

-- ---------------------------------------------------------------------------
-- Growing on request
-- ---------------------------------------------------------------------------

theorem Sound.extendToIndex_run (h : Sound t) (i : Nat) : ∃ t', Sound t' ∧
    (i < primeCount → i < t'.size) ∧ (extendToIndex i).run t =
      if i < primeCount then .ok () t' else .error .limitExceeded t' := by
  unfold extendToIndex
  by_cases hIndex : i < primeCount
  · have hSize := h.size_le
    obtain ⟨hSound, hGrown⟩ := h.pushNexts (n := i + 1 - t.size) (by omega)
    refine ⟨_, hSound, ?_, ?_⟩
    · intro _
      omega
    · rw [if_pos hIndex, if_neg (by omega)]
      rfl
  · refine ⟨t, h, fun hLt => absurd hLt hIndex, ?_⟩
    rw [if_neg hIndex, if_pos (Nat.le_of_not_lt hIndex)]
    rfl

/-- The limit on values is reached exactly when there is no room for another entry. -/
theorem Sound.extendToValue_run (h : Sound t) (v : Nat) : ∃ t', Sound t' ∧
    (v ≤ largestPrime → v ≤ t'.largest) ∧ (extendToValue v).run t =
      if v ≤ largestPrime then .ok () t' else .error .limitExceeded t' := by
  unfold extendToValue
  by_cases hValue : v ≤ largestPrime
  · have hSize := h.size_le
    obtain ⟨hSound, hEnd⟩ := h.pushUntil (v := v) (primeCount - t.size) (by omega)
    have hReached : v ≤ (t.pushUntil v (primeCount - t.size)).largest := by
      rcases hEnd with hReached | hFull
      · exact hReached
      · rw [hSound.largest_eq, hFull, show t.size + (primeCount - t.size) = primeCount by omega,
          nth_last]
        exact hValue
    refine ⟨_, hSound, fun _ => hReached, ?_⟩
    rw [if_pos hValue, if_neg (Nat.not_lt.mpr hValue)]
    show (if _ then _ else _ : Query Unit).run _ = _
    rw [if_neg (Nat.not_lt.mpr hReached)]
    rfl
  · refine ⟨t, h, fun hLe => absurd hLe hValue, ?_⟩
    rw [if_neg hValue, if_pos (Nat.lt_of_not_le hValue)]
    rfl

-- ---------------------------------------------------------------------------
-- Answers
-- ---------------------------------------------------------------------------

variable {seen : PrimeTable}

/-- The prime of an index, whatever the table was when it was looked at and whatever it is when
it is grown. -/
theorem primeAt_run (hSeen : Sound seen) (h : Sound t) (i : Nat) : ∃ t', Sound t' ∧
    (primeAt seen i).run t =
      if i < primeCount then .ok (Nat.nth Nat.Prime i) t' else .error .limitExceeded t' := by
  have hSize := hSeen.size_le
  unfold primeAt
  rcases Nat.lt_or_ge i seen.size with hFound | hMissing
  · refine ⟨t, h, ?_⟩
    rw [hSeen.entries i hFound, if_pos (by omega)]
    rfl
  · obtain ⟨t', hSound, hReach, hRun⟩ := h.extendToIndex_run i
    refine ⟨t', hSound, ?_⟩
    rw [get?_of_le hMissing]
    dsimp only
    by_cases hIndex : i < primeCount
    · rw [if_pos hIndex] at hRun ⊢
      rw [run_bind_ok hRun, run_bind_ok (EStateM.run_get t'), hSound.entries i (hReach hIndex)]
      rfl
    · rw [if_neg hIndex] at hRun ⊢
      exact run_bind_error hRun

/-- The index of a number. One that is not found is no prime, or it is beyond the limit. -/
theorem indexOf_run (hSeen : Sound seen) (h : Sound t) (v : Nat) : ∃ t', Sound t' ∧
    (indexOf seen v).run t =
      if largestPrime < v then .error .limitExceeded t'
      else if v.Prime then .ok (Nat.count Nat.Prime v) t' else .error (.notFound v) t' := by
  have hSeenLe := hSeen.largest_le
  unfold indexOf
  cases hFound : seen.position? v with
  | some i =>
    obtain ⟨hv, hLe, rfl⟩ := hSeen.eq_count_of_position? hFound
    refine ⟨t, h, ?_⟩
    dsimp only
    rw [if_neg (Nat.not_lt.mpr hLe), if_pos hv]
    rfl
  | none =>
    dsimp only
    by_cases hSmall : v ≤ seen.largest
    · -- the table that was seen holds every prime up to there
      have hv : ¬ v.Prime := by
        intro hv
        rw [hSeen.position?_prime hv hSmall] at hFound
        cases hFound
      refine ⟨t, h, ?_⟩
      rw [if_pos hSmall, if_neg (by omega), if_neg hv]
      rfl
    · obtain ⟨t', hSound, hReach, hRun⟩ := h.extendToValue_run v
      refine ⟨t', hSound, ?_⟩
      rw [if_neg hSmall]
      by_cases hValue : v ≤ largestPrime
      · rw [if_pos hValue] at hRun
        rw [run_bind_ok hRun, run_bind_ok (EStateM.run_get t'), if_neg (Nat.not_lt.mpr hValue)]
        by_cases hv : v.Prime
        · rw [hSound.position?_prime hv (hReach hValue), if_pos hv]
          rfl
        · rw [hSound.position?_not_prime hv, if_neg hv]
          rfl
      · rw [if_neg hValue] at hRun
        rw [run_bind_error hRun, if_pos (Nat.lt_of_not_le hValue)]

-- ---------------------------------------------------------------------------
-- Nothing is removed
-- ---------------------------------------------------------------------------

variable {α β : Type}

/-- A question makes no table smaller, also where it has no answer. -/
def Grows (q : Query α) : Prop := ∀ t, t.size ≤ (stateAfter (q.run t)).size

theorem Grows.bind {q : Query α} {f : α → Query β} (hFirst : Grows q) (hThen : ∀ a, Grows (f a)) :
    Grows (q >>= f) := fun t =>
  stateAfter_bind (P := fun t' => t.size ≤ t'.size) (hFirst t)
    fun a t' hLe => hLe.trans (hThen a t')

theorem grows_pure (a : α) : Grows (pure a : Query α) := fun t => le_refl t.size

theorem grows_get : Grows (get : Query PrimeTable) := fun t => le_refl t.size

theorem grows_throw (error : PrimeError) : Grows (throw error : Query α) := fun t => le_refl t.size

theorem grows_throw_bind (error : PrimeError) (f : α → Query β) :
    Grows ((throw error : Query α) >>= f) := fun t => le_refl t.size

theorem size_pushNext (t : PrimeTable) : t.pushNext.size = t.size + 1 := Array.size_push _

theorem size_le_pushNexts (n : Nat) (t : PrimeTable) : t.size ≤ (pushNexts n t).size := by
  induction n generalizing t with
  | zero => exact le_refl _
  | succ n ih => exact (Nat.le_succ _).trans ((size_pushNext t).ge.trans (ih t.pushNext))

theorem size_le_pushUntil (v room : Nat) (t : PrimeTable) : t.size ≤ (pushUntil v room t).size := by
  induction room generalizing t with
  | zero => exact le_refl _
  | succ room ih =>
    unfold pushUntil
    split
    · exact (Nat.le_succ _).trans ((size_pushNext t).ge.trans (ih t.pushNext))
    · exact le_refl _

theorem grows_extendToIndex (i : Nat) : Grows (extendToIndex i) := by
  unfold extendToIndex
  split
  · exact grows_throw_bind _ _
  · exact fun t => size_le_pushNexts _ t

theorem grows_extendToValue (v : Nat) : Grows (extendToValue v) := by
  have hModify : Grows (modify fun t => t.pushUntil v (primeCount - t.size)) :=
    fun t => size_le_pushUntil v _ t
  unfold extendToValue
  split
  · exact grows_throw_bind _ _
  · refine hModify.bind fun _ => grows_get.bind fun t => ?_
    split
    · exact grows_throw _
    · exact grows_pure _

theorem grows_search (search : PrimeTable → Option Nat) (error : PrimeError) :
    Grows (do
      match search (← get) with
      | some n => pure n
      | none => throw error : Query Nat) := by
  refine grows_get.bind fun t => ?_
  split
  · exact grows_pure _
  · exact grows_throw _

theorem grows_primeAt (seen : PrimeTable) (i : Nat) : Grows (primeAt seen i) := by
  unfold primeAt
  split
  · exact grows_pure _
  · exact (grows_extendToIndex i).bind fun _ => grows_search (·.get? i) _

theorem grows_indexOf (seen : PrimeTable) (v : Nat) : Grows (indexOf seen v) := by
  unfold indexOf
  split
  · exact grows_pure _
  · split
    · exact grows_throw_bind _ _
    · exact (grows_extendToValue v).bind fun _ => grows_search (·.position? v) _

/-- Larger tables reach further. -/
theorem Sound.largest_mono {t' : PrimeTable} (h : Sound t) (h' : Sound t')
    (hSize : t.size ≤ t'.size) : t.largest ≤ t'.largest := by
  rw [h.largest_eq, h'.largest_eq]
  exact nth_prime_strictMono.monotone (Nat.sub_le_sub_right hSize 1)

end PrimeTable

end FactorMachine
