import FactorMachine.Prime.Basic
import Mathlib.Data.Nat.Prime.Basic
import Mathlib.NumberTheory.PrimeCounting

/-!
# FactorMachine — the primality test

`isPrime` divides by `2` and by odd numbers until a square passes the tested number. The
lemmas here say that this decides primality, so that everything that is filtered by the test
is a list of primes.

## Results

* `undividedFrom_iff` — what one run of trial divisors excludes.
* `isPrime_iff`       — the test accepts the primes and nothing else.
* `exists_oddPrime_dvd_of_not_prime` — an odd composite has an odd prime divisor below
  every number whose square it does not reach.
-/

namespace FactorMachine

/-- A run of trial divisors `d, d + 2, …` succeeds exactly when none of those whose square
is at most `n` divides `n`. -/
theorem undividedFrom_iff (n counter d : Nat) :
    undividedFrom n counter d = true ↔
      ∀ k < counter, (d + 2 * k) * (d + 2 * k) ≤ n → ¬ (d + 2 * k) ∣ n := by
  induction counter generalizing d with
  | zero => simp [undividedFrom]
  | succ counter ih =>
    unfold undividedFrom
    split
    · rename_i hSquare
      -- every later divisor has a larger square still
      refine iff_of_true rfl ?_
      intro k _ hLe
      have : d * d ≤ (d + 2 * k) * (d + 2 * k) := Nat.mul_le_mul (by omega) (by omega)
      omega
    · rename_i hSquare
      split
      · rename_i hDvd
        refine iff_of_false (by simp) ?_
        intro hAll
        exact hAll 0 (by omega) (by simpa using hSquare)
          (by simpa using Nat.dvd_of_mod_eq_zero hDvd)
      · rename_i hNotDvd
        rw [ih]
        constructor
        · intro hRest k hk hLe
          cases k with
          | zero => simpa [Nat.dvd_iff_mod_eq_zero] using hNotDvd
          | succ k =>
            rw [show d + 2 * (k + 1) = d + 2 + 2 * k by omega] at hLe ⊢
            exact hRest k (by omega) hLe
        · intro hAll k hk hLe
          rw [show d + 2 + 2 * k = d + 2 * (k + 1) by omega] at hLe ⊢
          exact hAll (k + 1) (by omega) hLe

/-- An odd number has an odd least prime factor. -/
theorem minFac_odd_of_odd {n : Nat} (hOdd : n % 2 = 1) (hOne : n ≠ 1) :
    n.minFac % 2 = 1 ∧ 3 ≤ n.minFac := by
  have hPrime := Nat.minFac_prime hOne
  have hDvd := Nat.minFac_dvd n
  have hMod : n.minFac % 2 = 1 := by
    rcases Nat.mod_two_eq_zero_or_one n.minFac with hEven | hEq
    · have : 2 ∣ n := (Nat.dvd_of_mod_eq_zero hEven).trans hDvd
      omega
    · exact hEq
  have := hPrime.two_le
  exact ⟨hMod, by omega⟩

theorem isPrime_iff (n : Nat) : isPrime n = true ↔ n.Prime := by
  unfold isPrime
  split
  · rename_i hSmall
    exact iff_of_false (by simp) fun hPrime => by have := hPrime.two_le; omega
  · split
    · rename_i hEven
      rw [beq_iff_eq]
      constructor
      · rintro rfl
        exact Nat.prime_two
      · intro hPrime
        exact ((Nat.prime_dvd_prime_iff_eq Nat.prime_two hPrime).mp
          (Nat.dvd_of_mod_eq_zero hEven)).symm
    · rename_i hTwo hOdd
      rw [undividedFrom_iff]
      constructor
      · -- the least prime factor of a composite number would have been tried
        intro hAll
        by_contra hComposite
        obtain ⟨hMod, hThree⟩ := minFac_odd_of_odd (n := n) (by omega) (by omega)
        have hSquare := Nat.minFac_sq_le_self (by omega) hComposite
        rw [pow_two] at hSquare
        obtain ⟨k, hk⟩ : ∃ k, n.minFac = 3 + 2 * k := ⟨(n.minFac - 3) / 2, by omega⟩
        have hBound : n.minFac ≤ n := Nat.minFac_le (by omega)
        apply hAll k (by omega)
        · rwa [← hk]
        · rw [← hk]
          exact Nat.minFac_dvd n
      · intro hPrime k _ hLe hDvd
        rcases (Nat.dvd_prime hPrime).mp hDvd with hOne | hSelf
        · omega
        · rw [hSelf] at hLe
          have : n * 2 ≤ n * n := Nat.mul_le_mul_left n (by omega)
          omega

/-- An odd composite number below `b * b` has an odd prime divisor below `b`. -/
theorem exists_oddPrime_dvd_of_not_prime {n b : Nat} (hOdd : n % 2 = 1) (hOne : n ≠ 1)
    (hBound : n < b * b) (hComposite : ¬ n.Prime) :
    ∃ p, p.Prime ∧ p % 2 = 1 ∧ p < b ∧ p ∣ n := by
  obtain ⟨hMod, -⟩ := minFac_odd_of_odd hOdd hOne
  refine ⟨n.minFac, Nat.minFac_prime hOne, hMod, ?_, Nat.minFac_dvd n⟩
  have hSquare := Nat.minFac_sq_le_self (by omega) hComposite
  rw [pow_two] at hSquare
  by_contra hLarge
  have : b * b ≤ n.minFac * n.minFac := Nat.mul_le_mul (by omega) (by omega)
  omega

end FactorMachine
