import FactorMachine.Proofs.Seeker.Bank
import Mathlib.Data.List.Nodup
import Mathlib.Data.Nat.ModEq

/-!
# FactorMachine — slots in rotation

A bank of slots is asked again and again: for addresses, by one program after another, and to take
down how an attempt went. Its slots trade places and change their order of merit all the time, and
what it hands out depends on that order. What does not change is that the addresses from one to the
number of slots are shared out among the slots, each to one of them, and that the pointer is at one
of these addresses.

So the pointer goes round just these addresses, whatever else the program has. It is never at a
loss, and as long as a program asks for no more slots than there are, it gets different ones.

## Results

* `nextTarget_eq`        — where the pointer goes.
* `Rotating.plan`        — what a bank hands out, and that it goes on rotating.
* `Rotating.recordOutcome` — an outcome moves no slot.
-/

namespace FactorMachine

-- ---------------------------------------------------------------------------
-- The pointer
-- ---------------------------------------------------------------------------

/-- The locked addresses of a program are those beside the addresses from one to `n`. -/
def LocksOthers (n programLength : Nat) (locked : List Nat) : Prop :=
  ∀ a < programLength, a ∈ locked ↔ ¬ (1 ≤ a ∧ a ≤ n)

section Pointer

variable {n programLength pointer : Nat} {locked : List Nat}
  (hLocks : LocksOthers n programLength locked) (hLength : n < programLength)
include hLocks hLength

omit hLength in
theorem mem_eligible_iff_of_locksOthers {a : Nat} :
    a ∈ eligible programLength locked ↔ a < programLength ∧ 1 ≤ a ∧ a ≤ n := by
  rw [mem_eligible]
  refine and_congr_right fun hLt => ?_
  rw [hLocks a hLt]
  omega

/-- The pointer goes from each address of a slot to the next, and from the last one past the end of
the program to the first. -/
theorem nextEligible_of_locksOthers (hFirst : 1 ≤ pointer) (hLast : pointer ≤ n) :
    NextEligible programLength locked pointer (pointer % n + 1) := by
  have hMem := @mem_eligible_iff_of_locksOthers n programLength locked hLocks
  rcases Nat.lt_or_eq_of_le hLast with hLt | rfl
  · rw [Nat.mod_eq_of_lt hLt]
    exact ⟨1, Nat.le_refl 1, (Nat.mod_eq_of_lt (by omega)).symm, hMem.mpr (by omega),
      fun j hj hLess => by omega⟩
  · have hEnd : pointer + (programLength - pointer + 1) = programLength + 1 := by omega
    rw [Nat.mod_self]
    refine ⟨programLength - pointer + 1, by omega, ?_, hMem.mpr (by omega), fun j hj hLess => ?_⟩
    · rw [hEnd, Nat.add_mod_left, Nat.mod_eq_of_lt (by omega)]
    · -- what lies between is no slot's, and neither is zero
      rw [hMem]
      rcases Nat.lt_or_ge (pointer + j) programLength with hInside | hOutside
      · rw [Nat.mod_eq_of_lt hInside]
        omega
      · rw [show pointer + j = programLength by omega, Nat.mod_self]
        omega

/-- The pointer goes round the addresses of the slots. -/
theorem nextTarget_eq (hFirst : 1 ≤ pointer) (hLast : pointer ≤ n) :
    nextTarget pointer programLength locked = .ok (pointer % n + 1) := by
  have hNext := nextEligible_of_locksOthers hLocks hLength hFirst hLast
  rcases nextTarget_cases pointer programLength locked with ⟨target, hFound, hTarget⟩ | ⟨-, hNone⟩
  · rw [hFound, hTarget.unique hNext]
  · exact absurd (hNone ▸ hNext.mem) (Finset.notMem_empty _)

end Pointer

-- ---------------------------------------------------------------------------
-- Banks
-- ---------------------------------------------------------------------------

namespace SlotBank

/-- The slots share out the addresses from one to `n`, and the pointer is at one of these. -/
structure Rotating (n : Nat) (b : SlotBank) : Prop where
  addresses : (addresses b.slots).Perm (List.range' 1 n)
  first : 1 ≤ b.pointer
  last : b.pointer ≤ n

/-- The next `count` addresses after a pointer that goes round `n` of them. -/
def upcoming (n pointer count : Nat) : List Nat :=
  (List.range count).map fun k => (pointer + k) % n + 1

variable {n : Nat} {b : SlotBank}

theorem upcoming_succ (pointer count : Nat) : upcoming n pointer (count + 1) =
    (pointer % n + 1) :: upcoming n (pointer % n + 1) count := by
  simp only [upcoming, List.range_succ_eq_map, List.map_cons, List.map_map, Nat.add_zero]
  refine congrArg _ (List.map_congr_left fun k _ => ?_)
  simp only [Function.comp_apply]
  rw [Nat.add_assoc (pointer % n), Nat.mod_add_mod, Nat.succ_eq_one_add]

theorem mem_upcoming {pointer count a : Nat} (hPos : 1 ≤ n) (h : a ∈ upcoming n pointer count) :
    1 ≤ a ∧ a ≤ n := by
  obtain ⟨k, -, rfl⟩ := List.mem_map.mp h
  have hLt : (pointer + k) % n < n := Nat.mod_lt _ hPos
  omega

/-- Going round once meets no address twice. -/
theorem nodup_upcoming {pointer count : Nat} (h : count ≤ n) :
    (upcoming n pointer count).Nodup := by
  refine List.Nodup.map_on ?_ List.nodup_range
  intro i hi j hj hSame
  have hi := List.mem_range.mp hi
  have hj := List.mem_range.mp hj
  have hMod : i ≡ j [MOD n] := Nat.ModEq.add_left_cancel' pointer (Nat.succ.inj hSame)
  exact hMod.eq_of_lt_of_lt (by omega) (by omega)

theorem Rotating.length (h : b.Rotating n) : b.slots.length = n := by
  have hLength := h.addresses.length_eq
  simpa [SlotBank.addresses] using hLength

theorem rotating_start (instruction : Chunk) (historyLimit modificationLimit : Nat) (h : 1 ≤ n) :
    (start (List.range' 1 n) instruction historyLimit modificationLimit).Rotating n := by
  obtain ⟨m, rfl⟩ : ∃ m, n = m + 1 := ⟨n - 1, by omega⟩
  refine ⟨?_, Nat.le_refl 1, h⟩
  rw [addresses_start]

/-- An outcome moves no slot. -/
theorem Rotating.recordOutcome (h : b.Rotating n) (address : Nat) (instruction : Chunk)
    (success : Bool) : (b.recordOutcome address instruction success).2.Rotating n := by
  have hPointer : (b.recordOutcome address instruction success).2.pointer = b.pointer := by
    obtain ⟨slots, hFrame⟩ := b.recordOutcome_frame address instruction success
    rw [hFrame]
  refine ⟨?_, hPointer ▸ h.first, hPointer ▸ h.last⟩
  rw [addresses_recordOutcome]
  exact h.addresses

section Plan

variable {programLength : Nat} {locked : List Nat} (hLocks : LocksOthers n programLength locked)
  (hLength : n < programLength)
include hLocks hLength

theorem Rotating.place (h : b.Rotating n) (i : Nat) : ∃ b',
    (place i programLength locked).run b = .ok (b.pointer % n + 1) b' ∧ b'.Rotating n ∧
      b'.pointer = b.pointer % n + 1 := by
  have hNext := nextTarget_eq hLocks hLength h.first h.last
  have hPos : 1 ≤ n := Nat.le_trans h.first h.last
  have hLt : b.pointer % n < n := Nat.mod_lt _ hPos
  have hTarget : b.pointer % n + 1 ∈ SlotBank.addresses b.slots := by
    rw [h.addresses.mem_iff, List.mem_range'_1]
    omega
  refine ⟨⟨moveSlot b.slots i (b.pointer % n + 1), b.pointer % n + 1,
    b.modifications.push (b.pointer % n + 1)⟩, ?_, ⟨?_, by simp, hLt⟩, rfl⟩
  · rw [run_place, hNext]
  · exact (addresses_moveSlot i hTarget).trans h.addresses

theorem Rotating.places (chosen : List Nat) : ∀ {b : SlotBank}, b.Rotating n → ∃ b',
    (chosen.mapM fun i => SlotBank.place i programLength locked).run b =
      .ok (upcoming n b.pointer chosen.length) b' ∧ b'.Rotating n := by
  induction chosen with
  | nil => exact fun {b} h => ⟨b, rfl, h⟩
  | cons i rest ih =>
    intro b h
    obtain ⟨b₁, hPlace, hRotating, hPointer⟩ := h.place hLocks hLength i
    obtain ⟨b₂, hRest, hRotating'⟩ := ih hRotating
    refine ⟨b₂, ?_, hRotating'⟩
    rw [List.mapM_cons, run_bind_ok hPlace, run_bind_ok hRest, List.length_cons, upcoming_succ,
      hPointer]
    rfl

/-- A program is never refused its slots: it gets the next ones in rotation. -/
theorem Rotating.plan (h : b.Rotating n) (streak : Nat) : ∃ b',
    (plan streak programLength locked).run b =
      .ok (upcoming n b.pointer (min n (1 + streak / 2))) b' ∧ b'.Rotating n := by
  have hCount : (b.slotsToUpdate streak).length = min n (1 + streak / 2) := by
    rw [length_slotsToUpdate, selectedCount, h.length]
  obtain ⟨b', hPlaces, hRotating⟩ := Rotating.places hLocks hLength (b.slotsToUpdate streak) h
  rw [run_plan, hPlaces, hCount]
  exact ⟨b', rfl, hRotating⟩

end Plan

end SlotBank

end FactorMachine
