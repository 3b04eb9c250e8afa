import FactorMachine.Seeker.Slot
import Mathlib.Data.Finset.Card
import Mathlib.Data.List.Chain
import Mathlib.Data.Nat.Find

/-!
# FactorMachine — the rotating pointer

The pointer of a bank goes round the addresses of a program and stops at the next one that is
neither zero nor locked. Whether there is one does not depend on where the pointer is, so a pointer
that found an address finds another one from there.

A pointer that comes back to an address has been at all the others in between: the addresses that it
has been at lead only to each other, and every address is some way after each of them. So it hands
out as many different addresses as there are, before it hands out one again.

## Results

* `nextTarget_cases`            — the pointer finds the next address, or there is none.
* `eligible_subset_of_closed`   — addresses that lead only to each other are all there are.
* `nodup_of_isChain`            — addresses in a row are different, if there are enough of them.
-/

namespace FactorMachine

/-- The addresses of a program that may be handed out. -/
def eligible (programLength : Nat) (locked : List Nat) : Finset Nat :=
  (Finset.range programLength).filter fun a => a ≠ 0 ∧ a ∉ locked

/-- The first address after the pointer that may be handed out, going round the program. -/
def NextEligible (programLength : Nat) (locked : List Nat) (pointer target : Nat) : Prop :=
  ∃ k, 1 ≤ k ∧ target = (pointer + k) % programLength ∧ target ∈ eligible programLength locked ∧
    ∀ j, 1 ≤ j → j < k → (pointer + j) % programLength ∉ eligible programLength locked

variable {programLength : Nat} {locked : List Nat}

theorem mem_eligible {a : Nat} :
    a ∈ eligible programLength locked ↔ a < programLength ∧ a ≠ 0 ∧ a ∉ locked := by
  rw [eligible, Finset.mem_filter, Finset.mem_range]

-- ---------------------------------------------------------------------------
-- The search
-- ---------------------------------------------------------------------------

section Search

variable {counter pointer target : Nat}

theorem mod_mem_eligible_iff (hPos : 0 < programLength) (n : Nat) :
    n % programLength ∈ eligible programLength locked ↔
      n % programLength ≠ 0 ∧ !locked.contains (n % programLength) := by
  rw [mem_eligible, and_iff_right (Nat.mod_lt n hPos), Bool.not_eq_true', List.contains_eq_mem,
    decide_eq_false_iff_not]

/-- The search stops at the next place, or goes on from there. -/
theorem eligibleAfter_succ (hPos : 0 < programLength) (counter pointer : Nat) :
    eligibleAfter programLength locked (counter + 1) pointer =
      if (pointer + 1) % programLength ∈ eligible programLength locked then
        some ((pointer + 1) % programLength)
      else eligibleAfter programLength locked counter ((pointer + 1) % programLength) :=
  if_congr (mod_mem_eligible_iff hPos _).symm rfl rfl

/-- What is some way after the next place is one more after this one. -/
theorem add_mod_add (pointer k : Nat) :
    ((pointer + 1) % programLength + k) % programLength = (pointer + (k + 1)) % programLength := by
  rw [Nat.mod_add_mod, Nat.add_assoc, Nat.add_comm 1]

theorem eligibleAfter_eq_some (hPos : 0 < programLength)
    (h : eligibleAfter programLength locked counter pointer = some target) :
    NextEligible programLength locked pointer target := by
  induction counter generalizing pointer with
  | zero => cases h
  | succ counter ih =>
    rw [eligibleAfter_succ hPos] at h
    split at h
    · rename_i hFree
      cases h
      exact ⟨1, Nat.le_refl 1, rfl, hFree, fun j hFirst hLast => by omega⟩
    · rename_i hPassed
      obtain ⟨k, hk, rfl, hMem, hBefore⟩ := ih h
      refine ⟨k + 1, Nat.le_add_left 1 k, add_mod_add pointer k, hMem, fun j hFirst hLast => ?_⟩
      -- the first place was passed over, the others are those of the rest of the search
      obtain ⟨j, rfl⟩ : ∃ i, j = i + 1 := ⟨j - 1, by omega⟩
      rcases Nat.eq_zero_or_pos j with rfl | hj
      · exact hPassed
      · rw [← add_mod_add]
        exact hBefore j hj (Nat.lt_of_succ_lt_succ hLast)

theorem eligibleAfter_eq_none (hPos : 0 < programLength)
    (h : eligibleAfter programLength locked counter pointer = none) {k : Nat} (hFirst : 1 ≤ k)
    (hLast : k ≤ counter) : (pointer + k) % programLength ∉ eligible programLength locked := by
  induction counter generalizing pointer k with
  | zero => omega
  | succ counter ih =>
    rw [eligibleAfter_succ hPos] at h
    split at h
    · cases h
    · rename_i hPassed
      obtain ⟨k, rfl⟩ : ∃ i, k = i + 1 := ⟨k - 1, by omega⟩
      rcases Nat.eq_zero_or_pos k with rfl | hk
      · exact hPassed
      · rw [← add_mod_add]
        exact ih h hk (Nat.le_of_succ_le_succ hLast)

/-- **The pointer finds the next address, or there is none at all.** -/
theorem nextTarget_cases (pointer programLength : Nat) (locked : List Nat) :
    (∃ target, nextTarget pointer programLength locked = .ok target ∧
      NextEligible programLength locked pointer target) ∨
    (nextTarget pointer programLength locked = .error (.invalidTarget (.allProtected programLength)) ∧
      eligible programLength locked = ∅) := by
  unfold nextTarget
  rcases Nat.eq_zero_or_pos programLength with rfl | hPos
  · exact .inr ⟨rfl, rfl⟩
  cases hFound : eligibleAfter programLength locked programLength pointer with
  | some target => exact .inl ⟨target, rfl, eligibleAfter_eq_some hPos hFound⟩
  | none =>
    refine .inr ⟨rfl, Finset.eq_empty_of_forall_notMem fun a hMem => ?_⟩
    have hLt : pointer % programLength < programLength := Nat.mod_lt pointer hPos
    have ha : a < programLength := (mem_eligible.mp hMem).1
    -- each address is met by going round once
    obtain ⟨k, hFirst, hLast, hAddress⟩ : ∃ k, 1 ≤ k ∧ k ≤ programLength ∧
        (pointer % programLength + k) % programLength = a := by
      rcases Nat.lt_or_ge (pointer % programLength) a with hBefore | hAfter
      · refine ⟨a - pointer % programLength, by omega, by omega, ?_⟩
        rw [Nat.add_sub_cancel' hBefore.le, Nat.mod_eq_of_lt ha]
      · refine ⟨a + programLength - pointer % programLength, by omega, by omega, ?_⟩
        rw [Nat.add_sub_cancel' (by omega), Nat.add_mod_right, Nat.mod_eq_of_lt ha]
    refine eligibleAfter_eq_none hPos hFound hFirst hLast ?_
    rwa [← Nat.mod_add_mod, hAddress]

end Search

-- ---------------------------------------------------------------------------
-- Going round
-- ---------------------------------------------------------------------------

theorem NextEligible.mem {pointer target : Nat}
    (h : NextEligible programLength locked pointer target) :
    target ∈ eligible programLength locked := by
  obtain ⟨-, -, -, hMem, -⟩ := h
  exact hMem

/-- There is only one next address. -/
theorem NextEligible.unique {pointer a b : Nat} (ha : NextEligible programLength locked pointer a)
    (hb : NextEligible programLength locked pointer b) : a = b := by
  obtain ⟨i, hi, rfl, hMem, hBefore⟩ := ha
  obtain ⟨j, hj, rfl, hMem', hBefore'⟩ := hb
  rcases Nat.lt_trichotomy i j with hLt | rfl | hGt
  · exact absurd hMem (hBefore' i hi hLt)
  · rfl
  · exact absurd hMem' (hBefore j hj hGt)

/-- An address some way after the pointer is the next one, or after the next one. -/
theorem exists_next_within {pointer k : Nat} (hk : 1 ≤ k)
    (h : (pointer + k) % programLength ∈ eligible programLength locked) :
    ∃ j, 1 ≤ j ∧ j ≤ k ∧
      NextEligible programLength locked pointer ((pointer + j) % programLength) := by
  have hSome : ∃ j, 1 ≤ j ∧ (pointer + j) % programLength ∈ eligible programLength locked :=
    ⟨k, hk, h⟩
  obtain ⟨hFirst, hMem⟩ := Nat.find_spec hSome
  refine ⟨Nat.find hSome, hFirst, Nat.find_min' hSome ⟨hk, h⟩, Nat.find hSome, hFirst, rfl, hMem, ?_⟩
  intro j hj hLess hMem'
  exact Nat.find_min hSome hLess ⟨hj, hMem'⟩

/-- Addresses that lead only to each other are all there are. -/
theorem eligible_subset_of_closed {s : Finset Nat} (hNonempty : s.Nonempty)
    (hSubset : s ⊆ eligible programLength locked)
    (hClosed : ∀ a ∈ s, ∀ b, NextEligible programLength locked a b → b ∈ s) :
    eligible programLength locked ⊆ s := by
  -- by induction on how far after one of them an address is
  have hWithin : ∀ k, ∀ a ∈ s, (a + k) % programLength ∈ eligible programLength locked →
      (a + k) % programLength ∈ s := by
    intro k
    induction k using Nat.strongRecOn with
    | ind k ih =>
      intro a ha hMem
      rcases Nat.eq_zero_or_pos k with rfl | hk
      · rwa [Nat.add_zero, Nat.mod_eq_of_lt (mem_eligible.mp (hSubset ha)).1]
      · obtain ⟨j, hFirst, hLast, hNext⟩ := exists_next_within hk hMem
        have hRest : ((a + j) % programLength + (k - j)) % programLength =
            (a + k) % programLength := by
          rw [Nat.mod_add_mod, Nat.add_assoc, Nat.add_sub_cancel' hLast]
        rw [← hRest] at hMem ⊢
        exact ih (k - j) (by omega) _ (hClosed a ha _ hNext) hMem
  intro b hb
  obtain ⟨a, ha⟩ := hNonempty
  have hLt : a < programLength := (mem_eligible.mp (hSubset ha)).1
  have hAround : (a + (b + programLength - a)) % programLength = b := by
    rw [Nat.add_sub_cancel' (by omega), Nat.add_mod_right,
      Nat.mod_eq_of_lt (mem_eligible.mp hb).1]
  rw [← hAround] at hb ⊢
  exact hWithin _ a ha hb

/-- **Addresses in a row are different, if there are enough of them.** -/
theorem nodup_of_isChain {as : List Nat} (hChain : as.IsChain (NextEligible programLength locked))
    (hMem : ∀ a ∈ as, a ∈ eligible programLength locked)
    (hCount : as.length ≤ (eligible programLength locked).card) : as.Nodup := by
  -- if the last address had been handed out before, those before it would be all there are
  induction as using List.reverseRecOn with
  | nil => exact List.nodup_nil
  | append_singleton as a ih =>
    rw [List.length_append, List.length_singleton] at hCount
    have hMem' : ∀ b ∈ as, b ∈ eligible programLength locked := fun b hb =>
      hMem b (List.mem_append_left [a] hb)
    have hNodup := ih hChain.left_of_append hMem' (Nat.le_of_succ_le hCount)
    refine List.nodup_append.mpr ⟨hNodup, List.nodup_singleton a, ?_⟩
    rintro b hb c hc rfl
    obtain rfl := List.mem_singleton.mp hc
    have hClosed : ∀ x ∈ as.toFinset, ∀ y, NextEligible programLength locked x y →
        y ∈ as.toFinset := by
      intro x hx y hNext
      rw [List.mem_toFinset] at hx ⊢
      obtain ⟨before, after, rfl⟩ := List.append_of_mem hx
      rw [List.append_assoc, List.cons_append] at hChain
      have hRest := hChain.right_of_append
      cases after with
      | nil =>
        rw [hNext.unique (List.isChain_cons_cons.mp hRest).1]
        exact hb
      | cons z after =>
        rw [hNext.unique (List.isChain_cons_cons.mp hRest).1]
        simp
    have hAll := eligible_subset_of_closed ⟨b, List.mem_toFinset.mpr hb⟩
      (fun x hx => hMem' x (List.mem_toFinset.mp hx)) hClosed
    have hFew := (Finset.card_le_card hAll).trans (List.toFinset_card_le as)
    omega

end FactorMachine
