import FactorMachine.Proofs.Prime.Primality
import Mathlib.Algebra.Ring.GeomSum
import Mathlib.Data.Nat.ModEq

/-!
# FactorMachine — how many primes are numbered

The numbering stops at `largestPrime`, and the indices below `primeCount` are all taken.
That the two limits agree is a fact about sixteen million numbers, and it is established by
a sieve that is small enough to be evaluated inside a proof.

A window of odd numbers is one natural number: bit `j` of the window at `o` stands for
`2 * (o + j) + 1`. The multiples of an odd divisor are then evenly spaced bits, which is a
single quotient (`comb`), and the marked bits of a window are counted by residues: bits that
are `w` apart add up modulo `2 ^ w - 1` (`markCount`).

## Results

* `testBit_comb`, `testBit_strike` — what a window's bits stand for.
* `markCount_eq`  — counting by residues counts the bits.
* `count_primes`  — there are `primeCount` primes up to `largestPrime`.
-/

namespace FactorMachine.Sieve

-- ---------------------------------------------------------------------------
-- Definitions
-- ---------------------------------------------------------------------------

/-- The number with bits `0, d, 2 * d, …, (n - 1) * d`. -/
def comb (d n : Nat) : Nat := Nat.div (Nat.shiftLeft 1 (d * n) - 1) (Nat.shiftLeft 1 d - 1)

/-- The place of the first multiple of the odd number `d` in the window at `o`. -/
def firstMultiple (o d : Nat) : Nat := (d / 2 + (d - o % d)) % d

/-- The window of `len` odd numbers at `o` with the multiples of the given divisors marked. -/
def strike (o len : Nat) : List Nat → Nat
  | [] => 0
  | d :: ds =>
    Nat.lor (Nat.shiftLeft (comb d (len / d + 1)) (firstMultiple o d)) (strike o len ds)

/-- The bits at multiples of `w` below `w * n`, added up. -/
def stride (w n marks : Nat) : Nat := Nat.land marks (comb w n) % (Nat.shiftLeft 1 w - 1)

/-- The bits below `w * n`, added up by their residues modulo `w`. -/
def markCount (w n marks : Nat) : Nat :=
  ((List.range w).map fun i => stride w n (Nat.shiftRight marks i)).sum

/-- How many of the odd numbers in a window have one of the given divisors. -/
def struck (w o len : Nat) (ds : List Nat) : Nat :=
  markCount w (len / w + 1) (Nat.land (strike o len ds) (Nat.shiftLeft 1 len - 1))

/-- The same for `n` windows in a row, the last of them first. -/
def struckInWindows (w o len : Nat) (ds : List Nat) : Nat → Nat
  | 0 => 0
  | n + 1 => struckInWindows w o len ds n + struck w (o + n * len) len ds

/-- The odd primes below `2 * n + 1`. -/
def oddPrimes (n : Nat) : List Nat := ((List.range n).map (2 * · + 1)).filter isPrime

-- ---------------------------------------------------------------------------
-- Evenly spaced bits
-- ---------------------------------------------------------------------------

theorem comb_eq_sum {d : Nat} (hd : 0 < d) (n : Nat) :
    comb d n = ∑ k ∈ Finset.range n, (2 ^ d) ^ k := by
  have hTwo : 2 ≤ 2 ^ d := Nat.le_self_pow hd.ne' 2
  rw [Nat.geomSum_eq hTwo]
  show (1 <<< (d * n) - 1) / (1 <<< d - 1) = _
  rw [Nat.one_shiftLeft, Nat.one_shiftLeft, pow_mul]

/-- The first tooth of a comb, and the rest of it one spacing further up. -/
theorem comb_succ {d : Nat} (hd : 0 < d) (n : Nat) : comb d (n + 1) = 2 ^ d * comb d n + 1 := by
  rw [comb_eq_sum hd, comb_eq_sum hd, Finset.sum_range_succ', Finset.mul_sum]
  simp [pow_succ']

theorem testBit_comb {d : Nat} (hd : 0 < d) (n i : Nat) :
    (comb d n).testBit i = true ↔ i < d * n ∧ d ∣ i := by
  induction n generalizing i with
  | zero => simp [comb_eq_sum hd]
  | succ n ih =>
    have hOne : 1 < 2 ^ d := Nat.one_lt_two_pow (by omega)
    rw [comb_succ hd, Nat.testBit_two_pow_mul_add _ hOne]
    split
    · rename_i hLow
      rw [Nat.testBit_one_eq_true_iff_self_eq_zero]
      constructor
      · rintro rfl
        exact ⟨Nat.mul_pos hd (by omega), dvd_zero d⟩
      · rintro ⟨-, hDvd⟩
        exact Nat.eq_zero_of_dvd_of_lt hDvd hLow
    · rename_i hHigh
      rw [ih, Nat.mul_succ, Nat.dvd_sub_iff_left (by omega) (dvd_refl d)]
      refine and_congr ?_ Iff.rfl
      omega

-- ---------------------------------------------------------------------------
-- Counting bits by residues
-- ---------------------------------------------------------------------------

/-- The teeth that a number shares with a comb: its lowest bit, and the same for the number
shifted down by one spacing. -/
theorem land_comb_succ {w : Nat} (hw : 0 < w) (n marks : Nat) :
    marks &&& comb w (n + 1) = 2 ^ w * ((marks >>> w) &&& comb w n) + marks % 2 := by
  have hTwo : 2 ≤ 2 ^ w := Nat.le_self_pow hw.ne' 2
  apply Nat.eq_of_testBit_eq
  intro i
  rw [Nat.testBit_two_pow_mul_add _ (by omega), Nat.testBit_and, Bool.eq_iff_iff]
  simp only [Bool.and_eq_true, testBit_comb hw]
  split
  · -- within the first spacing only the lowest bit is a tooth
    rename_i hLow
    constructor
    · rintro ⟨hBit, -, hDvd⟩
      obtain rfl := Nat.eq_zero_of_dvd_of_lt hDvd hLow
      simpa using hBit
    · intro hBit
      have hZero : i = 0 := by
        by_contra hPos
        rw [Nat.testBit_lt_two_pow] at hBit
        · simp at hBit
        · calc marks % 2 < 2 ^ 1 := Nat.mod_lt _ (by omega)
            _ ≤ 2 ^ i := Nat.pow_le_pow_right (by omega) (by omega)
      subst hZero
      exact ⟨by simpa using hBit, Nat.mul_pos hw (by omega), dvd_zero w⟩
  · rename_i hHigh
    rw [Nat.testBit_and, Bool.and_eq_true, testBit_comb hw, Nat.testBit_shiftRight,
      Nat.add_sub_cancel' (by omega), Nat.mul_succ, Nat.dvd_sub_iff_left (by omega) (dvd_refl w)]
    refine and_congr Iff.rfl (and_congr ?_ Iff.rfl)
    omega

/-- Modulo `2 ^ w - 1` all powers of `2 ^ w` are one, so the shared teeth are added up. -/
theorem land_comb_modEq {w : Nat} (hw : 0 < w) (n marks : Nat) :
    marks &&& comb w n ≡ Nat.count (fun k => marks.testBit (w * k) = true) n [MOD 2 ^ w - 1] := by
  induction n generalizing marks with
  | zero => simp [comb_eq_sum hw, Nat.ModEq]
  | succ n ih =>
    have hOne : 2 ^ w ≡ 1 [MOD 2 ^ w - 1] := Nat.modEq_sub Nat.one_le_two_pow
    have hRest := hOne.mul (ih (marks >>> w))
    rw [one_mul] at hRest
    have hBit : marks % 2 = if marks.testBit (w * 0) = true then 1 else 0 := by
      rw [Nat.mul_zero, Nat.testBit_zero]
      rcases Nat.mod_two_eq_zero_or_one marks with h | h <;> simp [h]
    rw [land_comb_succ hw, Nat.count_succ', hBit]
    refine Nat.ModEq.add_right _ ?_
    simpa only [Nat.testBit_shiftRight, Nat.mul_succ, Nat.add_comm w] using hRest

theorem stride_eq {w n : Nat} (hw : 0 < w) (hn : n < 2 ^ w - 1) (marks : Nat) :
    stride w n marks = Nat.count (fun k => marks.testBit (w * k) = true) n := by
  show (marks &&& comb w n) % (1 <<< w - 1) = _
  rw [Nat.one_shiftLeft]
  have hMod : (marks &&& comb w n) % (2 ^ w - 1) = _ := land_comb_modEq hw n marks
  rw [hMod, Nat.mod_eq_of_lt]
  exact lt_of_le_of_lt (Nat.count_le _) hn

theorem count_eq_sum (p : Nat → Prop) [DecidablePred p] (n : Nat) :
    Nat.count p n = ∑ i ∈ Finset.range n, if p i then 1 else 0 := by
  rw [Nat.count_eq_card_filter_range, Finset.card_filter]

/-- Counting by residues modulo `w` counts everything below `w * n`. -/
theorem sum_count_residues (p : Nat → Prop) [DecidablePred p] (w n : Nat) :
    ∑ i ∈ Finset.range w, Nat.count (fun k => p (i + w * k)) n = Nat.count p (w * n) := by
  induction n with
  | zero => simp
  | succ n ih =>
    rw [Nat.mul_succ, Nat.count_add, ← ih, count_eq_sum (fun k => p (w * n + k)),
      ← Finset.sum_add_distrib]
    apply Finset.sum_congr rfl
    intro i _
    rw [Nat.count_succ, Nat.add_comm i]

theorem markCount_eq {w n : Nat} (hw : 0 < w) (hn : n < 2 ^ w - 1) (marks : Nat) :
    markCount w n marks = Nat.count (fun j => marks.testBit j = true) (w * n) := by
  rw [← sum_count_residues]
  show ∑ i ∈ Finset.range w, stride w n (marks >>> i) = _
  apply Finset.sum_congr rfl
  intro i _
  rw [stride_eq hw hn]
  simp only [Nat.testBit_shiftRight]

-- ---------------------------------------------------------------------------
-- Marked windows
-- ---------------------------------------------------------------------------

theorem firstMultiple_lt {d : Nat} (hd : 0 < d) (o : Nat) : firstMultiple o d < d :=
  Nat.mod_lt _ hd

theorem dvd_firstMultiple {d : Nat} (hOdd : d % 2 = 1) (o : Nat) :
    d ∣ 2 * (o + firstMultiple o d) + 1 := by
  -- up to multiples of `d` the sum is `2 * (d / 2) + 1`, which is `d` itself
  have hO := Nat.div_add_mod o d
  have hF : d * ((d / 2 + (d - o % d)) / d) + firstMultiple o d = d / 2 + (d - o % d) :=
    Nat.div_add_mod (d / 2 + (d - o % d)) d
  have hLt := Nat.mod_lt o (show 0 < d by omega)
  have hSum : 2 * (o + firstMultiple o d) + 1 + 2 * (d * ((d / 2 + (d - o % d)) / d)) =
      2 * (d * (o / d)) + d * 3 := by omega
  have hDvd : d ∣ 2 * (o + firstMultiple o d) + 1 + 2 * (d * ((d / 2 + (d - o % d)) / d)) := by
    rw [hSum]
    exact dvd_add (Dvd.dvd.mul_left (dvd_mul_right d _) 2) (dvd_mul_right d 3)
  exact (Nat.dvd_add_left (Dvd.dvd.mul_left (dvd_mul_right d _) 2)).mp hDvd

/-- The teeth of one divisor stand at its multiples. -/
theorem testBit_teeth {d o len j : Nat} (hOdd : d % 2 = 1) (hj : j < len) :
    (comb d (len / d + 1) <<< firstMultiple o d).testBit j = true ↔ d ∣ 2 * (o + j) + 1 := by
  have hd : 0 < d := by omega
  have hFirst := dvd_firstMultiple hOdd o
  have hFirstLt := firstMultiple_lt hd o
  have hCoprime : Nat.Coprime d 2 := Nat.coprime_two_right.mpr (Nat.odd_iff.mpr hOdd)
  rw [Nat.testBit_shiftLeft, Bool.and_eq_true, decide_eq_true_eq, testBit_comb hd]
  generalize firstMultiple o d = r at *
  have hLen : len < d * (len / d + 1) := Nat.lt_mul_div_succ len hd
  rcases Nat.lt_or_ge j r with hBelow | hAbove
  · refine iff_of_false (by omega) ?_
    -- two multiples less than a spacing apart
    intro hDvd
    have hDiff := Nat.dvd_sub hFirst hDvd
    rw [show 2 * (o + r) + 1 - (2 * (o + j) + 1) = 2 * (r - j) by omega] at hDiff
    have := Nat.le_of_dvd (by omega) (hCoprime.dvd_of_dvd_mul_left hDiff)
    omega
  · rw [show 2 * (o + j) + 1 = 2 * (o + r) + 1 + 2 * (j - r) by omega, Nat.dvd_add_right hFirst]
    constructor
    · rintro ⟨-, -, hDvd⟩
      exact Dvd.dvd.mul_left hDvd 2
    · intro hDvd
      exact ⟨hAbove, by omega, hCoprime.dvd_of_dvd_mul_left hDvd⟩

theorem testBit_strike {o len j : Nat} {ds : List Nat} (hOdd : ∀ d ∈ ds, d % 2 = 1)
    (hj : j < len) :
    (strike o len ds).testBit j = true ↔ ∃ d ∈ ds, d ∣ 2 * (o + j) + 1 := by
  induction ds with
  | nil => simp [strike]
  | cons d ds ih =>
    rw [List.forall_mem_cons] at hOdd
    show (comb d (len / d + 1) <<< firstMultiple o d ||| strike o len ds).testBit j = true ↔ _
    rw [Nat.testBit_or, Bool.or_eq_true, testBit_teeth hOdd.1 hj, ih hOdd.2,
      List.exists_mem_cons_iff]

theorem count_congr {p q : Nat → Prop} [DecidablePred p] [DecidablePred q] {n : Nat}
    (h : ∀ k < n, p k ↔ q k) : Nat.count p n = Nat.count q n :=
  le_antisymm (Nat.count_mono_left fun k hk => (h k hk).mp)
    (Nat.count_mono_left fun k hk => (h k hk).mpr)

theorem struck_eq {w o len : Nat} {ds : List Nat} (hw : 0 < w) (hLen : len / w + 1 < 2 ^ w - 1)
    (hOdd : ∀ d ∈ ds, d % 2 = 1) :
    struck w o len ds = Nat.count (fun j => ∃ d ∈ ds, d ∣ 2 * (o + j) + 1) len := by
  -- the residues reach a little past the window, where the mask has cleared all bits
  obtain ⟨rest, hRest⟩ : ∃ rest, w * (len / w + 1) = len + rest :=
    Nat.exists_eq_add_of_le (Nat.lt_mul_div_succ len hw).le
  rw [struck, markCount_eq hw hLen, hRest, Nat.count_add]
  have hMask (j : Nat) :
      (Nat.land (strike o len ds) (Nat.shiftLeft 1 len - 1)).testBit j =
        ((strike o len ds).testBit j && decide (j < len)) := by
    show (strike o len ds &&& (1 <<< len - 1)).testBit j = _
    rw [Nat.testBit_and, Nat.one_shiftLeft, Nat.testBit_two_pow_sub_one]
  have hBeyond : Nat.count (fun k => (Nat.land (strike o len ds)
      (Nat.shiftLeft 1 len - 1)).testBit (len + k) = true) rest = 0 := by
    rw [Nat.count_iff_forall_not]
    intro k _
    rw [hMask]
    simp
  rw [hBeyond, Nat.add_zero]
  apply count_congr
  intro j hj
  rw [hMask, decide_eq_true hj, Bool.and_true, testBit_strike hOdd hj]

theorem struckInWindows_eq {w o len : Nat} {ds : List Nat} (hw : 0 < w)
    (hLen : len / w + 1 < 2 ^ w - 1) (hOdd : ∀ d ∈ ds, d % 2 = 1) (n : Nat) :
    struckInWindows w o len ds n =
      Nat.count (fun j => ∃ d ∈ ds, d ∣ 2 * (o + j) + 1) (n * len) := by
  induction n with
  | zero => simp [struckInWindows]
  | succ n ih =>
    rw [struckInWindows, ih, struck_eq hw hLen hOdd, Nat.succ_mul, Nat.count_add]
    simp only [Nat.add_assoc]

-- ---------------------------------------------------------------------------
-- The primes among the odd numbers
-- ---------------------------------------------------------------------------

theorem mem_oddPrimes {n d : Nat} : d ∈ oddPrimes n ↔ d.Prime ∧ d % 2 = 1 ∧ d < 2 * n + 1 := by
  unfold oddPrimes
  rw [List.mem_filter, isPrime_iff]
  constructor
  · rintro ⟨hMem, hPrime⟩
    obtain ⟨j, hj, rfl⟩ := List.mem_map.mp hMem
    rw [List.mem_range] at hj
    exact ⟨hPrime, by omega, by omega⟩
  · rintro ⟨hPrime, hOdd, hLt⟩
    exact ⟨List.mem_map.mpr ⟨d / 2, List.mem_range.mpr (by omega), by omega⟩, hPrime⟩

theorem length_oddPrimes (n : Nat) :
    (oddPrimes n).length = Nat.count (fun j => (2 * j + 1).Prime) n := by
  unfold oddPrimes
  rw [← List.countP_eq_length_filter, List.countP_map]
  apply List.countP_congr
  intro j _
  simp [isPrime_iff]

/-- Above the known primes and below their square, what no known prime divides is prime. -/
theorem struck_iff_not_prime {b j : Nat} (hj : 2 * (b + j) + 1 < (2 * b + 1) * (2 * b + 1)) :
    (∃ d ∈ oddPrimes b, d ∣ 2 * (b + j) + 1) ↔ ¬ (2 * (b + j) + 1).Prime := by
  constructor
  · rintro ⟨d, hd, hDvd⟩ hPrime
    obtain ⟨hdPrime, -, hLt⟩ := mem_oddPrimes.mp hd
    have := (Nat.prime_dvd_prime_iff_eq hdPrime hPrime).mp hDvd
    omega
  · intro hComposite
    have hPos : b + j ≠ 0 := by
      intro hZero
      obtain ⟨rfl, rfl⟩ : b = 0 ∧ j = 0 := by omega
      omega
    obtain ⟨p, hPrime, hOdd, hLt, hDvd⟩ :=
      exists_oddPrime_dvd_of_not_prime (by omega) (by omega) hj hComposite
    exact ⟨p, mem_oddPrimes.mpr ⟨hPrime, hOdd, hLt⟩, hDvd⟩

theorem count_add_count_not (p : Nat → Prop) [DecidablePred p] (n : Nat) :
    Nat.count p n + Nat.count (fun k => ¬ p k) n = n := by
  induction n with
  | zero => simp
  | succ n ih =>
    rw [Nat.count_succ, Nat.count_succ]
    by_cases h : p n
    · simp only [h, if_true, not_true_eq_false, if_false]
      omega
    · simp only [h, if_false, not_false_eq_true, if_true]
      omega

/-- Known primes and unmarked numbers together are all odd primes. -/
theorem count_oddPrimes_add {b n : Nat} (hn : 2 * (b + n) < (2 * b + 1) * (2 * b + 1)) :
    Nat.count (fun j => (2 * j + 1).Prime) (b + n) +
      Nat.count (fun j => ∃ d ∈ oddPrimes b, d ∣ 2 * (b + j) + 1) n =
    (oddPrimes b).length + n := by
  have hMarked : Nat.count (fun j => ∃ d ∈ oddPrimes b, d ∣ 2 * (b + j) + 1) n =
      Nat.count (fun j => ¬ (2 * (b + j) + 1).Prime) n := by
    apply count_congr
    intro j hj
    exact struck_iff_not_prime (by omega)
  have hAll := count_add_count_not (fun j => (2 * (b + j) + 1).Prime) n
  rw [Nat.count_add, length_oddPrimes, hMarked]
  omega

/-- All primes but one are odd. -/
theorem count_primes_even (n : Nat) :
    Nat.count Nat.Prime (2 * (n + 2)) = 1 + Nat.count (fun j => (2 * j + 1).Prime) (n + 2) := by
  induction n with
  | zero => decide
  | succ n ih =>
    have hEven : ¬ (2 * (n + 2)).Prime := Nat.not_prime_mul (by omega) (by omega)
    rw [show 2 * (n + 1 + 2) = 2 * (n + 2) + 1 + 1 by omega, Nat.count_succ, Nat.count_succ, ih,
      show n + 1 + 2 = n + 2 + 1 by omega,
      Nat.count_succ (fun j => (2 * j + 1).Prime) (n + 2), if_neg hEven, Nat.add_zero,
      Nat.add_assoc]

/-- The primes up to the end of `n` windows and a shorter last one, counted by what is marked
in them. -/
theorem count_primes_add_struck {w b len n rest : Nat} (hw : 0 < w)
    (hLen : len / w + 1 < 2 ^ w - 1) (hRest : rest / w + 1 < 2 ^ w - 1) (hb : 2 ≤ b)
    (hReach : 2 * (b + (n * len + rest)) < (2 * b + 1) * (2 * b + 1)) :
    Nat.count Nat.Prime (2 * (b + (n * len + rest))) +
      (struckInWindows w b len (oddPrimes b) n + struck w (b + n * len) rest (oddPrimes b)) =
    (oddPrimes b).length + (n * len + rest) + 1 := by
  have hOdd : ∀ d ∈ oddPrimes b, d % 2 = 1 := fun d hd => (mem_oddPrimes.mp hd).2.1
  have hAll := count_oddPrimes_add hReach
  rw [Nat.count_add (fun j => ∃ d ∈ oddPrimes b, d ∣ 2 * (b + j) + 1)] at hAll
  obtain ⟨m, hm⟩ : ∃ m, b + (n * len + rest) = m + 2 := ⟨b + (n * len + rest) - 2, by omega⟩
  rw [struckInWindows_eq hw hLen hOdd, struck_eq hw hRest hOdd, hm, count_primes_even, ← hm]
  simp only [Nat.add_assoc] at hAll ⊢
  omega

/-- The sieve itself: the odd primes below `4037` are known, and 62 windows above them with a
shorter last one reach to `largestPrime`. -/
theorem struck_total :
    (oddPrimes 2018).length + (62 * 131072 + 16542) + 1 = primeCount +
      (struckInWindows 20 2018 131072 (oddPrimes 2018) 62 +
        struck 20 (2018 + 62 * 131072) 16542 (oddPrimes 2018)) := by
  decide +kernel

theorem count_primes : Nat.count Nat.Prime (largestPrime + 1) = primeCount := by
  have hCount := @count_primes_add_struck 20 2018 131072 62 16542 (by decide) (by decide)
    (by decide) (by decide) (by decide)
  have hEnd : 2 * (2018 + (62 * 131072 + 16542)) = largestPrime + 1 := by decide
  rw [struck_total, hEnd] at hCount
  exact Nat.add_right_cancel hCount

end FactorMachine.Sieve
