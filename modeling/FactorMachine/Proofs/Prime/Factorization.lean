import FactorMachine.Prime.Factorization
import FactorMachine.Proofs.Prime.Catalogue
import Mathlib.Data.Nat.Factorization.Basic

/-!
# FactorMachine — what a factorization is

A factorization of `n` lists primes in ascending order, each with a positive exponent, so that
the product of the powers is `n`. There is only one. `factorize` finds it exactly when all its
primes are numbered.

While a trial division is on its way, what remains times what was found is still `n`, and no
prime that was tried divides what remains. That invariant is `TrialDivision.Sound`.

## Results

* `IsFactorization.unique`   — a number has one factorization.
* `factorize_eq_ok_iff`      — `factorize` gives the factorization, if its primes are numbered.
* `factorize_eq_limit_iff`   — otherwise the limit of the numbering is exceeded.
* `TrialDivision.Sound.factors_eq` — a trial division by other means gives the same.
-/

namespace FactorMachine

/-- The product of prime powers. -/
def powerProduct (fs : List (Nat × Nat)) : Nat := (fs.map fun f => f.1 ^ f.2).prod

@[simp] theorem powerProduct_nil : powerProduct [] = 1 := rfl

@[simp] theorem powerProduct_cons (f : Nat × Nat) (fs : List (Nat × Nat)) :
    powerProduct (f :: fs) = f.1 ^ f.2 * powerProduct fs := by
  simp [powerProduct]

@[simp] theorem powerProduct_reverse (fs : List (Nat × Nat)) :
    powerProduct fs.reverse = powerProduct fs := by
  simp [powerProduct, List.map_reverse, List.prod_reverse]

/-- The primes that divide `n`, ascending, each with its exponent. -/
structure IsFactorization (n : Nat) (fs : List (Nat × Nat)) : Prop where
  prime : ∀ f ∈ fs, f.1.Prime
  pos : ∀ f ∈ fs, 0 < f.2
  ascending : fs.Pairwise fun f g => f.1 < g.1
  product : powerProduct fs = n

-- ---------------------------------------------------------------------------
-- Uniqueness
-- ---------------------------------------------------------------------------

/-- A prime that divides a product of prime powers is one of those primes. -/
theorem mem_of_dvd_powerProduct {q : Nat} (hq : q.Prime) {fs : List (Nat × Nat)}
    (hPrime : ∀ f ∈ fs, f.1.Prime) (hDvd : q ∣ powerProduct fs) : ∃ e, (q, e) ∈ fs := by
  induction fs with
  | nil => exact absurd (Nat.dvd_one.mp hDvd) hq.ne_one
  | cons f fs ih =>
    obtain ⟨p, e⟩ := f
    rw [powerProduct_cons, hq.dvd_mul] at hDvd
    rcases hDvd with hHead | hTail
    · have hEq : q = p :=
        (Nat.prime_dvd_prime_iff_eq hq (hPrime (p, e) (by simp))).mp (hq.dvd_of_dvd_pow hHead)
      exact ⟨e, by simp [hEq]⟩
    · obtain ⟨e', hMem⟩ := ih (fun f hf => hPrime f (by simp [hf])) hTail
      exact ⟨e', by simp [hMem]⟩

theorem powerProduct_pos {fs : List (Nat × Nat)} (hPrime : ∀ f ∈ fs, f.1.Prime) :
    0 < powerProduct fs := by
  induction fs with
  | nil => exact Nat.one_pos
  | cons f fs ih =>
    rw [powerProduct_cons]
    exact Nat.mul_pos (Nat.pow_pos (hPrime f (by simp)).pos)
      (ih fun g hg => hPrime g (by simp [hg]))

namespace IsFactorization

theorem pos_of {n : Nat} {fs : List (Nat × Nat)} (h : IsFactorization n fs) : 0 < n :=
  h.product ▸ powerProduct_pos h.prime

theorem tail {n : Nat} {f : Nat × Nat} {fs : List (Nat × Nat)}
    (h : IsFactorization n (f :: fs)) : IsFactorization (powerProduct fs) fs where
  prime g hg := h.prime g (by simp [hg])
  pos g hg := h.pos g (by simp [hg])
  ascending := (List.pairwise_cons.mp h.ascending).2
  product := rfl

/-- The first prime of a factorization does not divide the product of the rest. -/
theorem head_not_dvd {n p e : Nat} {fs : List (Nat × Nat)}
    (h : IsFactorization n ((p, e) :: fs)) : ¬ p ∣ powerProduct fs := by
  intro hDvd
  have hPrime := h.prime (p, e) (by simp)
  obtain ⟨e', hMem⟩ := mem_of_dvd_powerProduct hPrime h.tail.prime hDvd
  have hLt := (List.pairwise_cons.mp h.ascending).1 _ hMem
  exact Nat.lt_irrefl p hLt

/-- The first prime of a factorization is the least that divides the number. -/
theorem head_le {n p e q : Nat} {fs : List (Nat × Nat)}
    (h : IsFactorization n ((p, e) :: fs)) (hq : q.Prime) (hDvd : q ∣ n) : p ≤ q := by
  rw [← h.product] at hDvd
  obtain ⟨e', hMem⟩ := mem_of_dvd_powerProduct hq h.prime hDvd
  rcases List.mem_cons.mp hMem with hHead | hTail
  · rw [Prod.mk.injEq] at hHead
    exact hHead.1.ge
  · exact Nat.le_of_lt ((List.pairwise_cons.mp h.ascending).1 _ hTail)

theorem head_dvd {n p e : Nat} {fs : List (Nat × Nat)}
    (h : IsFactorization n ((p, e) :: fs)) : p ∣ n := by
  have hPos := h.pos (p, e) (by simp)
  rw [← h.product, powerProduct_cons]
  exact Dvd.dvd.mul_right (dvd_pow_self p hPos.ne') _

/-- A power that is split off in full is the greatest one. -/
theorem exponent_le {p e e' a b : Nat} (hp : 0 < p) (h : p ^ e * a = p ^ e' * b)
    (hNot : ¬ p ∣ a) : e' ≤ e := by
  by_contra hLt
  obtain ⟨k, rfl⟩ := Nat.exists_eq_add_of_lt (Nat.lt_of_not_le hLt)
  rw [Nat.add_assoc, pow_add, mul_assoc] at h
  have hRest : a = p ^ (k + 1) * b := Nat.eq_of_mul_eq_mul_left (Nat.pow_pos hp) h
  exact hNot (hRest ▸ Dvd.dvd.mul_right (dvd_pow_self p (Nat.succ_ne_zero k)) b)

/-- A number has one factorization. -/
theorem unique {n : Nat} {fs gs : List (Nat × Nat)} (hf : IsFactorization n fs)
    (hg : IsFactorization n gs) : fs = gs := by
  induction fs generalizing n gs with
  | nil =>
    cases gs with
    | nil => rfl
    | cons g gs =>
      obtain ⟨p, e⟩ := g
      have hOne : n = 1 := hf.product.symm
      have hDvd := hg.head_dvd
      rw [hOne, Nat.dvd_one] at hDvd
      exact absurd hDvd (hg.prime (p, e) (by simp)).ne_one
  | cons f fs ih =>
    obtain ⟨p, e⟩ := f
    have hp := hf.prime (p, e) (by simp)
    cases gs with
    | nil =>
      have hOne : n = 1 := hg.product.symm
      have hDvd := hf.head_dvd
      rw [hOne, Nat.dvd_one] at hDvd
      exact absurd hDvd hp.ne_one
    | cons g gs =>
      obtain ⟨q, e'⟩ := g
      have hq := hg.prime (q, e') (by simp)
      -- both begin with the least prime that divides `n`, and with the same power of it
      obtain rfl : p = q :=
        Nat.le_antisymm (hf.head_le hq hg.head_dvd) (hg.head_le hp hf.head_dvd)
      have hSame : p ^ e * powerProduct fs = p ^ e' * powerProduct gs := by
        have hLeft := hf.product
        have hRight := hg.product
        rw [powerProduct_cons] at hLeft hRight
        exact hLeft.trans hRight.symm
      have hExp : e = e' := Nat.le_antisymm (exponent_le hp.pos hSame.symm hg.head_not_dvd)
        (exponent_le hp.pos hSame hf.head_not_dvd)
      subst hExp
      have hTails : powerProduct fs = powerProduct gs :=
        Nat.eq_of_mul_eq_mul_left (Nat.pow_pos hp.pos) hSame
      rw [ih hf.tail (hTails ▸ hg.tail)]

end IsFactorization

-- ---------------------------------------------------------------------------
-- Dividing one prime out
-- ---------------------------------------------------------------------------

/-- What `divideOut` splits off is the full power of the prime. -/
theorem divideOut_spec {p : Nat} (hp : p.Prime) :
    ∀ (counter n : Nat), n ≤ counter → 0 < n →
      n = p ^ (divideOut p counter n).1 * (divideOut p counter n).2 ∧
        ¬ p ∣ (divideOut p counter n).2
  | 0, n, hLe, hPos => by omega
  | counter + 1, n, hLe, hPos => by
    rw [divideOut]
    split
    · rename_i hMod
      have hDvd := Nat.dvd_of_mod_eq_zero hMod
      have hQuotPos := Nat.div_pos (Nat.le_of_dvd hPos hDvd) hp.pos
      have hSmaller := Nat.div_lt_self hPos hp.one_lt
      obtain ⟨hEq, hNot⟩ := divideOut_spec hp counter (n / p) (by omega) hQuotPos
      refine ⟨?_, hNot⟩
      show n = p ^ ((divideOut p counter (n / p)).1 + 1) * (divideOut p counter (n / p)).2
      rw [pow_succ', mul_assoc, ← hEq, Nat.mul_div_cancel' hDvd]
    · rename_i hMod
      exact ⟨by simp, fun hDvd => hMod (Nat.mod_eq_zero_of_dvd hDvd)⟩

theorem divideOut_pos {p counter n : Nat} (hMod : n % p = 0) (hCounter : 0 < counter) :
    0 < (divideOut p counter n).1 := by
  obtain ⟨k, rfl⟩ := Nat.exists_eq_succ_of_ne_zero hCounter.ne'
  rw [divideOut, if_pos hMod]
  exact Nat.succ_pos _

-- ---------------------------------------------------------------------------
-- The invariant of trial division
-- ---------------------------------------------------------------------------

namespace TrialDivision

/-- A trial division of `n` in which the primes below `b` have been tried. -/
structure Sound (n b : Nat) (t : TrialDivision) : Prop where
  product : t.remaining * powerProduct t.found = n
  remaining_pos : 0 < t.remaining
  found_prime : ∀ f ∈ t.found, f.1.Prime
  found_pos : ∀ f ∈ t.found, 0 < f.2
  found_lt : ∀ f ∈ t.found, f.1 < b
  descending : t.found.Pairwise fun f g => g.1 < f.1
  not_dvd : ∀ q, q.Prime → q < b → ¬ q ∣ t.remaining
  settled : t.settled = true → t.remaining ≤ 1 ∨ t.remaining.Prime
  unsettled : t.settled = false → 1 < t.remaining

variable {n b : Nat} {t : TrialDivision}

theorem sound_start (hn : 0 < n) : Sound n 0 (start n) where
  product := by simp [start]
  remaining_pos := hn
  found_prime := by simp [start]
  found_pos := by simp [start]
  found_lt := by simp [start]
  descending := by simp [start]
  not_dvd := by simp
  settled h := by
    simp only [start, decide_eq_true_eq] at h
    exact .inl h
  unsettled h := by simpa [start] using h

/-- A number that is no prime, or does not divide what remains, has been tried. -/
theorem Sound.skip (h : Sound n b t) (hb : b.Prime → ¬ b ∣ t.remaining) : Sound n (b + 1) t :=
  { h with
    found_lt := fun f hf => Nat.lt_succ_of_lt (h.found_lt f hf)
    not_dvd := fun q hq hLt => by
      rcases Nat.lt_succ_iff_lt_or_eq.mp hLt with hBelow | rfl
      · exact h.not_dvd q hq hBelow
      · exact hb hq }

/-- The primes below a larger number have been tried if there are none in between. -/
theorem Sound.skipTo {b' : Nat} (h : Sound n b t) (hLe : b ≤ b')
    (hNone : ∀ q, q.Prime → q < b' → q < b) : Sound n b' t :=
  { h with
    found_lt := fun f hf => Nat.lt_of_lt_of_le (h.found_lt f hf) hLe
    not_dvd := fun q hq hLt => h.not_dvd q hq (hNone q hq hLt) }

/-- A prime is split off in full. -/
theorem Sound.split {e cofactor : Nat} (h : Sound n b t) (hb : b.Prime) (hExp : 0 < e)
    (hEq : t.remaining = b ^ e * cofactor) (hNot : ¬ b ∣ cofactor) :
    Sound n (b + 1) ⟨cofactor, (b, e) :: t.found, decide (cofactor ≤ 1)⟩ where
  product := by
    rw [powerProduct_cons, ← h.product]
    show cofactor * (b ^ e * _) = _
    rw [← mul_assoc, mul_comm cofactor, ← hEq]
  remaining_pos := by
    rcases Nat.eq_zero_or_pos cofactor with rfl | hPos
    · exact absurd (dvd_zero b) hNot
    · exact hPos
  found_prime f hf := by
    rcases List.mem_cons.mp hf with rfl | hf
    · exact hb
    · exact h.found_prime f hf
  found_pos f hf := by
    rcases List.mem_cons.mp hf with rfl | hf
    · exact hExp
    · exact h.found_pos f hf
  found_lt f hf := by
    rcases List.mem_cons.mp hf with rfl | hf
    · exact Nat.lt_succ_self b
    · exact Nat.lt_succ_of_lt (h.found_lt f hf)
  descending := List.pairwise_cons.mpr ⟨h.found_lt, h.descending⟩
  not_dvd q hq hLt hDvd := by
    -- a smaller prime that divides the cofactor divides what remained before
    rcases Nat.lt_succ_iff_lt_or_eq.mp hLt with hBelow | rfl
    · exact h.not_dvd q hq hBelow (hEq ▸ Dvd.dvd.mul_left hDvd _)
    · exact hNot hDvd
  settled hSettled := .inl (of_decide_eq_true hSettled)
  unsettled hUnsettled := Nat.lt_of_not_le (of_decide_eq_false hUnsettled)

/-- A remainder below the square of a prime that no smaller prime divides is itself prime. -/
theorem Sound.prime_of_lt_sq (h : Sound n b t) (hOpen : t.settled = false)
    (hSquare : t.remaining < b * b) : t.remaining.Prime := by
  by_contra hNot
  have hLarge := h.unsettled hOpen
  have hSq := Nat.minFac_sq_le_self h.remaining_pos hNot
  rw [pow_two] at hSq
  have hLt : t.remaining.minFac < b := by
    by_contra hGe
    have := Nat.mul_le_mul (Nat.le_of_not_lt hGe) (Nat.le_of_not_lt hGe)
    omega
  exact h.not_dvd _ (Nat.minFac_prime hLarge.ne') hLt (Nat.minFac_dvd _)

/-- A division by a prime either ends the search or has tried the prime. -/
theorem Sound.divideBy (h : Sound n b t) (hb : b.Prime) (hOpen : t.settled = false) :
    Sound n (b + 1) (t.divideBy b) ∨
      (Sound n b (t.divideBy b) ∧ (t.divideBy b).settled = true) := by
  unfold TrialDivision.divideBy
  split
  · rename_i hSquare
    right
    refine ⟨{ h with settled := fun _ => .inr (h.prime_of_lt_sq hOpen hSquare), unsettled := ?_ },
      rfl⟩
    intro hFalse
    cases hFalse
  · split
    · rename_i hMod
      left
      obtain ⟨hEq, hNot⟩ := divideOut_spec hb t.remaining t.remaining (le_refl _) h.remaining_pos
      exact h.split hb (divideOut_pos hMod h.remaining_pos) hEq hNot
    · rename_i hMod
      exact .inl (h.skip fun _ hDvd => hMod (Nat.mod_eq_zero_of_dvd hDvd))

theorem divideByAll_settled (ps : List Nat) (h : t.settled = true) : divideByAll ps t = t := by
  cases ps with
  | nil => rfl
  | cons p ps => rw [divideByAll, if_pos h]

/-- Trying all primes of a range settles the division or has tried the whole range. -/
theorem Sound.divideByAll (k : Nat) (h : Sound n b t) :
    ∃ b' ≤ b + k, Sound n b' (TrialDivision.divideByAll ((List.range' b k).filter isPrime) t) ∧
      ((TrialDivision.divideByAll ((List.range' b k).filter isPrime) t).settled = false →
        b' = b + k) := by
  induction k generalizing b t with
  | zero => exact ⟨b, le_refl _, h, fun _ => rfl⟩
  | succ k ih =>
    rcases Bool.eq_false_or_eq_true t.settled with hSettled | hOpen
    · rw [divideByAll_settled _ hSettled]
      exact ⟨b, by omega, h, fun hOpen => by rw [hSettled] at hOpen; cases hOpen⟩
    · rw [List.range'_succ, List.filter_cons]
      split
      · rename_i hTest
        have hb := (isPrime_iff b).mp hTest
        rw [TrialDivision.divideByAll, if_neg (by simp [hOpen])]
        rcases h.divideBy hb hOpen with hNext | ⟨hSame, hSettled⟩
        · obtain ⟨b', hLe, hSound, hAll⟩ := ih hNext
          exact ⟨b', by omega, hSound, fun hEnd => by rw [hAll hEnd]; omega⟩
        · rw [divideByAll_settled _ hSettled]
          exact ⟨b, by omega, hSame, fun hOpen => by rw [hSettled] at hOpen; cases hOpen⟩
      · rename_i hTest
        have hb : ¬ b.Prime := mt (isPrime_iff b).mpr hTest
        obtain ⟨b', hLe, hSound, hAll⟩ := ih (h.skip fun hPrime => absurd hPrime hb)
        exact ⟨b', by omega, hSound, fun hEnd => by rw [hAll hEnd]; omega⟩

theorem divideByAll_append (ps qs : List Nat) (t : TrialDivision) :
    divideByAll (ps ++ qs) t = divideByAll qs (divideByAll ps t) := by
  induction ps generalizing t with
  | nil => rfl
  | cons p ps ih =>
    rw [List.cons_append, TrialDivision.divideByAll, TrialDivision.divideByAll]
    split
    · rename_i hSettled
      rw [divideByAll_settled _ hSettled]
    · exact ih _

theorem divideByBlocks_eq (blocks : List (Thunk (List Nat))) (t : TrialDivision) :
    divideByBlocks blocks t = divideByAll (entries blocks) t := by
  induction blocks generalizing t with
  | nil => rfl
  | cons block rest ih =>
    rw [TrialDivision.divideByBlocks, entries_cons, divideByAll_append, ih]
    split
    · rename_i hSettled
      rw [divideByAll_settled _ hSettled, divideByAll_settled _ hSettled]
    · rfl

/-- The primes found by a sound trial division, in ascending order, with what remains. -/
theorem Sound.isFactorization_found (h : Sound n b t) (hOne : t.remaining ≤ 1) :
    IsFactorization n t.found.reverse where
  prime f hf := h.found_prime f (List.mem_reverse.mp hf)
  pos f hf := h.found_pos f (List.mem_reverse.mp hf)
  ascending := List.pairwise_reverse.mpr h.descending
  product := by
    have hPos := h.remaining_pos
    have hEq := h.product
    rw [show t.remaining = 1 by omega, one_mul] at hEq
    rw [powerProduct_reverse, hEq]

theorem Sound.isFactorization_cons (h : Sound n b t) (hPrime : t.remaining.Prime) :
    IsFactorization n ((t.remaining, 1) :: t.found).reverse where
  prime f hf := by
    rcases List.mem_cons.mp (List.mem_reverse.mp hf) with rfl | hf
    · exact hPrime
    · exact h.found_prime f hf
  pos f hf := by
    rcases List.mem_cons.mp (List.mem_reverse.mp hf) with rfl | hf
    · exact Nat.one_pos
    · exact h.found_pos f hf
  ascending := by
    refine List.pairwise_reverse.mpr (List.pairwise_cons.mpr ⟨?_, h.descending⟩)
    intro f hf
    -- the remainder is a prime that was not tried yet, so it exceeds those that were found
    have hBelow := h.found_lt f hf
    have hAbove : ¬ t.remaining < b := fun hLt => h.not_dvd _ hPrime hLt (dvd_refl _)
    show f.1 < t.remaining
    omega
  product := by rw [powerProduct_reverse, powerProduct_cons, pow_one, h.product]

end TrialDivision

-- ---------------------------------------------------------------------------
-- Factorizing
-- ---------------------------------------------------------------------------

/-- A factorization by primes that all have an index. -/
def NumberedPrimes (fs : List (Nat × Nat)) : Prop := ∀ f ∈ fs, f.1 ≤ largestPrime

/-- Then no prime beyond the limit divides the number. -/
theorem NumberedPrimes.le_of_dvd {n q : Nat} {fs : List (Nat × Nat)} (h : NumberedPrimes fs)
    (hIs : IsFactorization n fs) (hq : q.Prime) (hDvd : q ∣ n) : q ≤ largestPrime := by
  rw [← hIs.product] at hDvd
  obtain ⟨e, hMem⟩ := mem_of_dvd_powerProduct hq hIs.prime hDvd
  exact h _ hMem

/-- What a trial division has arrived at, once it is settled or has tried all numbered primes. -/
theorem TrialDivision.Sound.factors_spec {n b : Nat} {t : TrialDivision}
    (h : TrialDivision.Sound n b t) (hBelow : b ≤ largestPrime + 1)
    (hAll : t.settled = false → b = largestPrime + 1) :
    (∃ fs, t.factors = .ok fs ∧ IsFactorization n fs ∧ NumberedPrimes fs) ∨
      (t.factors = .error .limitExceeded ∧ ∃ q, q.Prime ∧ q ∣ n ∧ largestPrime < q) := by
  have hRemainder : t.remaining ∣ n := ⟨_, h.product.symm⟩
  have hFound : NumberedPrimes t.found := fun f hf => by
    have := h.found_lt f hf
    omega
  unfold TrialDivision.factors
  rcases Bool.eq_false_or_eq_true t.settled with hSettled | hOpen
  · rw [if_neg (by simp [hSettled])]
    split
    · rename_i hOne
      exact .inl ⟨_, rfl, h.isFactorization_found hOne,
        fun f hf => hFound f (List.mem_reverse.mp hf)⟩
    · rename_i hLarge
      have hPrime := (h.settled hSettled).resolve_left hLarge
      split
      · rename_i hLimit
        exact .inr ⟨rfl, _, hPrime, hRemainder, hLimit⟩
      · rename_i hLimit
        refine .inl ⟨_, rfl, h.isFactorization_cons hPrime, ?_⟩
        intro f hf
        rcases List.mem_cons.mp (List.mem_reverse.mp hf) with rfl | hf
        · exact Nat.le_of_not_lt hLimit
        · exact hFound f hf
  · rw [if_pos (by simp [hOpen])]
    -- no numbered prime divides the remainder, so its least prime is beyond them
    have hLarge := h.unsettled hOpen
    have hPrime := Nat.minFac_prime hLarge.ne'
    have hDvd := Nat.minFac_dvd t.remaining
    refine .inr ⟨rfl, _, hPrime, hDvd.trans hRemainder, ?_⟩
    by_contra hNumbered
    exact h.not_dvd _ hPrime (by rw [hAll hOpen]; omega) hDvd

/-- What `factorize` gives for a positive number. -/
theorem factorize_spec {n : Nat} (hn : 0 < n) :
    (∃ fs, factorize n = .ok fs ∧ IsFactorization n fs ∧ NumberedPrimes fs) ∨
      (factorize n = .error .limitExceeded ∧ ∃ q, q.Prime ∧ q ∣ n ∧ largestPrime < q) := by
  have hRange : List.range (largestPrime + 1) = List.range' 0 (largestPrime + 1) :=
    List.range_eq_range'
  obtain ⟨b, hBelow, hSound, hAll⟩ :=
    (TrialDivision.sound_start hn).divideByAll (largestPrime + 1)
  rw [Nat.zero_add] at hBelow hAll
  rw [factorize, if_neg hn.ne', TrialDivision.divideByBlocks_eq, entries_octaves, hRange]
  exact hSound.factors_spec hBelow hAll

/-- `factorize` gives the factorization of a number whose primes all have an index. -/
theorem factorize_eq_ok_iff {n : Nat} {fs : List (Nat × Nat)} :
    factorize n = .ok fs ↔ IsFactorization n fs ∧ NumberedPrimes fs := by
  constructor
  · intro hEq
    rcases Nat.eq_zero_or_pos n with rfl | hn
    · simp [factorize] at hEq
    · rcases factorize_spec hn with ⟨gs, hOk, hIs, hNumbered⟩ | ⟨hError, -⟩
      · rw [hOk, Except.ok.injEq] at hEq
        exact hEq ▸ ⟨hIs, hNumbered⟩
      · rw [hError] at hEq
        cases hEq
  · rintro ⟨hIs, hNumbered⟩
    rcases factorize_spec hIs.pos_of with ⟨gs, hOk, hOther, -⟩ | ⟨-, q, hq, hDvd, hLarge⟩
    · rw [hOk, hIs.unique hOther]
    · exact absurd hLarge (Nat.not_lt.mpr (hNumbered.le_of_dvd hIs hq hDvd))

/-- A positive number fails to factorize exactly when a prime beyond the limit divides it. -/
theorem factorize_eq_limit_iff {n : Nat} (hn : 0 < n) :
    factorize n = .error .limitExceeded ↔ ∃ q, q.Prime ∧ q ∣ n ∧ largestPrime < q := by
  constructor
  · intro hEq
    rcases factorize_spec hn with ⟨gs, hOk, -⟩ | ⟨-, hWitness⟩
    · rw [hOk] at hEq
      cases hEq
    · exact hWitness
  · rintro ⟨q, hq, hDvd, hLarge⟩
    rcases factorize_spec hn with ⟨gs, -, hIs, hNumbered⟩ | ⟨hError, -⟩
    · exact absurd hLarge (Nat.not_lt.mpr (hNumbered.le_of_dvd hIs hq hDvd))
    · exact hError

/-- However a trial division came about, it arrives at what `factorize` gives. -/
theorem TrialDivision.Sound.factors_eq {n b : Nat} {t : TrialDivision}
    (h : TrialDivision.Sound n b t) (hBelow : b ≤ largestPrime + 1)
    (hAll : t.settled = false → b = largestPrime + 1) : t.factors = factorize n := by
  have hn : 0 < n := by
    rw [← h.product]
    exact Nat.mul_pos h.remaining_pos (powerProduct_pos h.found_prime)
  rcases h.factors_spec hBelow hAll with ⟨fs, hOk, hIs, hNumbered⟩ | ⟨hError, hLarge⟩
  · rw [hOk, factorize_eq_ok_iff.mpr ⟨hIs, hNumbered⟩]
  · rw [hError, (factorize_eq_limit_iff hn).mpr hLarge]

end FactorMachine
