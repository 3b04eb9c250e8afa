import FactorMachine.Prime.Catalogue
import FactorMachine.Proofs.Prime.Sieve
import Mathlib.Data.List.TakeWhile

/-!
# FactorMachine — what the catalogue answers

The octaves, put one after another, are the primes up to `largestPrime` in ascending order.
So the entry at place `i` is the `i`-th prime, and the number of entries below a prime is its
index. Because exactly `primeCount` primes are listed, no index below `primeCount` runs past
the end of the catalogue.

## Results

* `entries_octaves`  — the catalogue is the ascending list of the numbered primes.
* `primeAt_of_lt`, `primeAt_of_le` — which indices have a prime, and which one.
* `indexOf_prime`, `indexOf_not_prime`, `indexOf_large` — which numbers have an index.
-/

namespace FactorMachine

/-- The entries of consecutive lists, in order. -/
def entries (blocks : List (Thunk (List Nat))) : List Nat := blocks.flatMap Thunk.get

@[simp] theorem entries_nil : entries [] = [] := rfl

@[simp] theorem entries_cons (block : Thunk (List Nat)) (rest : List (Thunk (List Nat))) :
    entries (block :: rest) = block.get ++ entries rest := rfl

theorem entryAt_eq (blocks : List (Thunk (List Nat))) (i : Nat) :
    entryAt blocks i = (entries blocks)[i]? := by
  induction blocks generalizing i with
  | nil => rfl
  | cons block rest ih =>
    rw [entryAt, entries_cons]
    split
    · rename_i p hEntry
      obtain ⟨hLt, -⟩ := List.getElem?_eq_some_iff.mp hEntry
      rw [List.getElem?_append_left hLt, hEntry]
    · rename_i hNone
      rw [ih, List.getElem?_append_right (List.getElem?_eq_none_iff.mp hNone)]

theorem countBelow_eq (v : Nat) (blocks : List (Thunk (List Nat))) :
    countBelow v blocks = ((entries blocks).takeWhile (· < v)).length := by
  induction blocks with
  | nil => rfl
  | cons block rest ih =>
    rw [countBelow, entries_cons]
    split
    · rename_i p hFound
      -- the block holds an entry that is not below `v`, so nothing after it is taken
      have hStop : (block.get.takeWhile (· < v)).length ≠ block.get.length := by
        intro hAll
        have hPrefix := List.takeWhile_prefix (l := block.get) fun x => decide (x < v)
        have hWhole := hPrefix.eq_of_length hAll
        have hBelow := List.takeWhile_eq_self_iff.mp hWhole p (List.mem_of_find?_eq_some hFound)
        have hAbove := List.find?_some hFound
        simp only [decide_eq_true_eq] at hBelow hAbove
        omega
      rw [List.takeWhile_append, if_neg hStop]
    · rename_i hNone
      rw [List.find?_eq_none] at hNone
      have hAll : ∀ x ∈ block.get, decide (x < v) = true := by
        intro x hx
        have := hNone x hx
        simp only [decide_eq_true_eq, not_le] at this ⊢
        exact this
      rw [List.takeWhile_append_of_pos hAll, List.length_append, ih]

-- ---------------------------------------------------------------------------
-- The octaves in a row
-- ---------------------------------------------------------------------------

theorem flatten_octaves_below (k : Nat) :
    (List.range k).flatMap octave =
      (List.range' 1 (min (2 ^ k - 1) largestPrime)).filter isPrime := by
  induction k with
  | zero => simp
  | succ k ih =>
    have hPow : 0 < 2 ^ k := Nat.two_pow_pos k
    have hLast : octave k =
        (List.range' (2 ^ k) (min (2 ^ k) (largestPrime + 1 - 2 ^ k))).filter isPrime := rfl
    rw [List.range_succ, List.flatMap_append, ih, List.flatMap_singleton, hLast,
      ← List.filter_append]
    congr 1
    -- an octave beyond the largest prime is empty
    rcases Nat.lt_or_ge largestPrime (2 ^ k) with hPast | hWithin
    · rw [show largestPrime + 1 - 2 ^ k = 0 by omega, Nat.min_zero, List.range'_zero,
        List.append_nil]
      congr 1
      omega
    · rw [show min (2 ^ k - 1) largestPrime = 2 ^ k - 1 by omega,
        show min (2 ^ (k + 1) - 1) largestPrime =
          2 ^ k - 1 + min (2 ^ k) (largestPrime + 1 - 2 ^ k) by omega,
        ← List.range'_append_1, show 1 + (2 ^ k - 1) = 2 ^ k by omega]

/-- The catalogue lists the primes up to `largestPrime`, ascending. -/
theorem entries_octaves : entries octaves = (List.range (largestPrime + 1)).filter isPrime := by
  have hBelow := flatten_octaves_below 24
  rw [show min (2 ^ 24 - 1) largestPrime = largestPrime by decide] at hBelow
  unfold entries octaves
  rw [List.flatMap_map]
  show (List.range 24).flatMap octave = _
  rw [hBelow, List.range_eq_range', List.range'_succ, List.filter_cons]
  rfl

-- ---------------------------------------------------------------------------
-- Places in the list of numbers that pass a test
-- ---------------------------------------------------------------------------

theorem getElem?_filter_range (p : Nat → Bool) (n i : Nat) (hi : i < Nat.count (p · = true) n) :
    ((List.range n).filter p)[i]? = some (Nat.nth (p · = true) i) := by
  induction n with
  | zero => simp at hi
  | succ n ih =>
    have hLength : ((List.range n).filter p).length = Nat.count (p · = true) n := by
      rw [← List.countP_eq_length_filter]
      simp [Nat.count]
    rw [List.range_succ, List.filter_append]
    -- either the place is filled already, or `n` is the number that fills it
    rcases Nat.lt_or_ge i (Nat.count (p · = true) n) with hBefore | hLast
    · rw [List.getElem?_append_left (by omega), ih hBefore]
    · rw [Nat.count_succ] at hi
      have hTest : p n = true := by
        by_contra hFails
        rw [if_neg hFails] at hi
        omega
      rw [if_pos hTest] at hi
      obtain rfl : i = Nat.count (p · = true) n := by omega
      rw [List.getElem?_append_right (by omega), hLength, Nat.sub_self,
        List.filter_cons_of_pos hTest, Nat.nth_count hTest]
      rfl

theorem length_takeWhile_filter_range (p : Nat → Bool) {v n : Nat} (hv : v ≤ n) :
    (((List.range n).filter p).takeWhile (· < v)).length = Nat.count (p · = true) v := by
  obtain ⟨k, rfl⟩ := Nat.exists_eq_add_of_le hv
  have hBelow : ∀ x ∈ (List.range v).filter p, decide (x < v) = true := by
    intro x hx
    simpa using (List.mem_filter.mp hx).1
  have hAbove : ((List.map (v + ·) (List.range k)).filter p).takeWhile (· < v) = [] := by
    rw [List.takeWhile_eq_nil_iff]
    intro hPos hHead
    obtain ⟨y, -, hy⟩ := List.mem_map.mp (List.mem_filter.mp (List.get_mem _ ⟨0, hPos⟩)).1
    simp only [decide_eq_true_eq] at hHead
    omega
  rw [List.range_add, List.filter_append, List.takeWhile_append_of_pos hBelow, hAbove,
    List.append_nil, ← List.countP_eq_length_filter]
  simp [Nat.count]

-- ---------------------------------------------------------------------------
-- Answers
-- ---------------------------------------------------------------------------

theorem count_isPrime (n : Nat) : Nat.count (isPrime · = true) n = Nat.count Nat.Prime n := by
  apply Sieve.count_congr
  intro k _
  exact isPrime_iff k

theorem isPrime_eq_prime : (isPrime · = true) = Nat.Prime := by
  funext n
  exact propext (isPrime_iff n)

theorem nth_prime_strictMono : StrictMono (Nat.nth Nat.Prime) :=
  Nat.nth_strictMono Nat.infinite_setOfPred_prime

/-- The primes of the indices below one limit are below the other. -/
theorem nth_prime_le {i : Nat} (hi : i < primeCount) : Nat.nth Nat.Prime i ≤ largestPrime := by
  rw [← Sieve.count_primes] at hi
  exact Nat.le_of_lt_succ (Nat.nth_lt_of_lt_count hi)

/-- Every index below the limit has a prime, the one of that place. -/
theorem primeAt_of_lt {i : Nat} (hi : i < primeCount) : primeAt i = .ok (Nat.nth Nat.Prime i) := by
  have hEntry : entryAt octaves i = some (Nat.nth Nat.Prime i) := by
    rw [entryAt_eq, entries_octaves, getElem?_filter_range, isPrime_eq_prime]
    rwa [count_isPrime, Sieve.count_primes]
  rw [primeAt, if_neg (by omega), hEntry]

theorem primeAt_of_le {i : Nat} (hi : primeCount ≤ i) : primeAt i = .error .limitExceeded := by
  rw [primeAt, if_pos hi]

theorem indexOf_prime {p : Nat} (hPrime : p.Prime) (hp : p ≤ largestPrime) :
    indexOf p = .ok (Nat.count Nat.Prime p) := by
  rw [indexOf, if_neg (by omega), if_pos ((isPrime_iff p).mpr hPrime), countBelow_eq,
    entries_octaves, length_takeWhile_filter_range _ (by omega), count_isPrime]

theorem indexOf_not_prime {v : Nat} (hv : ¬ v.Prime) (hLe : v ≤ largestPrime) :
    indexOf v = .error (.notFound v) := by
  rw [indexOf, if_neg (by omega), if_neg (mt (isPrime_iff v).mp hv)]

theorem indexOf_large {v : Nat} (hv : largestPrime < v) : indexOf v = .error .limitExceeded := by
  rw [indexOf, if_pos hv]

end FactorMachine
