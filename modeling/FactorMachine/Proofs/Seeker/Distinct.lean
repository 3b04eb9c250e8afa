import FactorMachine.Proofs.Seeker.Bank
import Mathlib.Data.List.Nodup

/-!
# FactorMachine — no two slots at one address

A bank may be planned for any program, with any addresses locked, and a plan may come to nothing
after some slots have been moved already. Within one plan several slots move in turn, and each may
come to an address that is free, to its own, to another slot's, or, where few addresses are left, to
one that was handed out a moment before. Trading places is what keeps them apart: whoever is at the
address that is handed out goes to the one that becomes free.

So an address stands for one slot at most. An outcome that is credited to it goes to that slot and
to no other, and an address without a slot is refused.

## Results

* `Distinct.place`        — a slot that moves leaves the slots apart.
* `Distinct.plan`         — so does a whole plan.
* `distinct_of_reachable` — the slots of every bank in use are apart, and what follows from it.
-/

namespace FactorMachine

namespace SlotBank

-- ---------------------------------------------------------------------------
-- Moving
-- ---------------------------------------------------------------------------

/-- Every slot has an address of its own, and none is at zero. -/
structure Distinct (b : SlotBank) : Prop where
  nodup : (addresses b.slots).Nodup
  nonzero : 0 ∉ addresses b.slots

theorem nodup_addresses_moveSlot {slots : List Slot} (h : (addresses slots).Nodup)
    (i target : Nat) : (addresses (moveSlot slots i target)).Nodup := by
  by_cases hTaken : target ∈ addresses slots
  · exact (addresses_moveSlot i hTaken).nodup_iff.mpr h
  · rw [addresses_moveSlot_free i hTaken]
    exact h.set hTaken

/-- Slots are at no other addresses than before, but for the new one. -/
theorem mem_addresses_moveSlot {slots : List Slot} {i target a : Nat}
    (h : a ∈ addresses (moveSlot slots i target)) : a = target ∨ a ∈ addresses slots := by
  by_cases hTaken : target ∈ addresses slots
  · exact .inr ((addresses_moveSlot i hTaken).mem_iff.mp h)
  · rw [addresses_moveSlot_free i hTaken] at h
    exact (List.mem_or_eq_of_mem_set h).symm

variable {b : SlotBank}

/-- A slot that is placed, and one for which there is no place, leaves the slots apart. -/
theorem Distinct.place (h : b.Distinct) (i programLength : Nat) (locked : List Nat) :
    (stateAfter ((SlotBank.place i programLength locked).run b)).Distinct := by
  rw [run_place]
  cases hNext : nextTarget b.pointer programLength locked with
  | error error => exact h
  | ok target =>
    obtain ⟨hTarget, -⟩ := nextTarget_spec hNext
    refine ⟨nodup_addresses_moveSlot h.nodup i target, fun hZero => ?_⟩
    rcases mem_addresses_moveSlot hZero with hSame | hBefore
    · exact hTarget hSame.symm
    · exact h.nonzero hBefore

/-- Planning leaves the slots apart, whether it succeeds or fails. -/
theorem Distinct.plan (h : b.Distinct) (streak programLength : Nat) (locked : List Nat) :
    (stateAfter ((SlotBank.plan streak programLength locked).run b)).Distinct := by
  rw [run_plan]
  exact stateAfter_mapM (fun i b hb => hb.place i programLength locked) _ h

-- ---------------------------------------------------------------------------
-- Outcomes
-- ---------------------------------------------------------------------------

theorem Distinct.recordOutcome (h : b.Distinct) (address : Nat) (instruction : Chunk)
    (success : Bool) : (b.recordOutcome address instruction success).2.Distinct := by
  have hSame := addresses_recordOutcome b address instruction success
  exact ⟨hSame.symm ▸ h.nodup, hSame.symm ▸ h.nonzero⟩

/-- Of slots that are apart, only one is at an address. -/
theorem Distinct.address_ne {before after : List Slot} {slot : Slot} (h : b.Distinct)
    (hSlots : b.slots = before ++ slot :: after) :
    ∀ other ∈ before ++ after, other.address ≠ slot.address := by
  have hNodup := h.nodup
  rw [hSlots, addresses, List.map_append, List.map_cons, List.nodup_middle, List.nodup_cons,
    ← List.map_append] at hNodup
  intro other hMem hSame
  exact hNodup.1 (List.mem_map.mpr ⟨other, hMem, hSame⟩)

-- ---------------------------------------------------------------------------
-- Banks in use
-- ---------------------------------------------------------------------------

/-- The banks that one leads to: what any plan, successful or not, and any outcome makes of it. -/
inductive Reachable (first : SlotBank) : SlotBank → Prop
  | start : Reachable first first
  | plan {b : SlotBank} (h : Reachable first b) (streak programLength : Nat) (locked : List Nat) :
      Reachable first (stateAfter ((SlotBank.plan streak programLength locked).run b))
  | recordOutcome {b : SlotBank} (h : Reachable first b) (address : Nat) (instruction : Chunk)
      (success : Bool) : Reachable first (b.recordOutcome address instruction success).2

theorem distinct_start {places : List Nat} (hNodup : places.Nodup) (hNonzero : 0 ∉ places)
    (instruction : Chunk) (historyLimit modificationLimit : Nat) :
    (start places instruction historyLimit modificationLimit).Distinct := by
  have hSame := addresses_start places instruction historyLimit modificationLimit
  exact ⟨hSame.symm ▸ hNodup, hSame.symm ▸ hNonzero⟩

theorem Reachable.distinct {first : SlotBank} (h : Reachable first b) (hFirst : first.Distinct) :
    b.Distinct := by
  induction h with
  | start => exact hFirst
  | plan _ streak programLength locked ih => exact ih.plan streak programLength locked
  | recordOutcome _ address instruction success ih =>
    exact ih.recordOutcome address instruction success

/-- Slots that start at different addresses, none of them zero, stay at different addresses, none
of them zero, whatever is planned and whatever comes of it. So an outcome that is recorded at an
address gives its chunk and its success to the one slot that is there, and nothing else changes; if
no slot is there, nothing changes at all. -/
theorem distinct_of_reachable {places : List Nat} {instruction : Chunk}
    {historyLimit modificationLimit : Nat} (hNodup : places.Nodup) (hNonzero : ∀ a ∈ places, a ≠ 0)
    (h : Reachable (start places instruction historyLimit modificationLimit) b) :
    (addresses b.slots).Nodup ∧ (∀ a ∈ addresses b.slots, a ≠ 0) ∧
    ∀ address chunk success,
      match b.recordOutcome address chunk success with
      | (true, b') => ∃ before slot after, b.slots = before ++ slot :: after ∧
        slot.address = address ∧ (∀ other ∈ before ++ after, other.address ≠ address) ∧
        b' = { b with slots := before ++
          { slot with instruction := chunk, outcomes := slot.outcomes.push success } :: after }
      | (false, b') => b' = b ∧ ∀ slot ∈ b.slots, slot.address ≠ address := by
  have hZero : 0 ∉ places := fun hMem => hNonzero 0 hMem rfl
  have hDistinct := h.distinct (distinct_start hNodup hZero instruction _ _)
  refine ⟨hDistinct.nodup, fun a hMem hSame => hDistinct.nonzero (hSame ▸ hMem), ?_⟩
  intro address chunk success
  rcases recordOutcome_cases b address chunk success with
    ⟨hSame, hNone⟩ | ⟨before, slot, after, hSlots, hAddress, hRecorded⟩
  · rw [hSame]
    exact ⟨rfl, fun slot hSlot hAddress => hNone (List.mem_map.mpr ⟨slot, hSlot, hAddress⟩)⟩
  · rw [hRecorded]
    exact ⟨before, slot, after, hSlots, hAddress, hAddress ▸ hDistinct.address_ne hSlots, rfl⟩

/-- Two slots are planned where only one address is free, so the second drives the first away from
it. An outcome at that address goes to the second. -/
theorem distinct_of_reachable_narrow :
    ∃ b : SlotBank, Reachable (start [4, 2] 81 10 20) b ∧ b.modifications.toList = [2, 2] ∧
      (addresses b.slots).Nodup ∧ ∃ before slot after, b.slots = before ++ slot :: after ∧
        slot.address = 2 ∧ (∀ other ∈ before ++ after, other.address ≠ 2) ∧
        (b.recordOutcome 2 512 true).2 = { b with slots := before ++
          { slot with instruction := 512, outcomes := slot.outcomes.push true } :: after } := by
  have hReachable := (@Reachable.start (start [4, 2] 81 10 20)).plan 4 6 [0, 1, 3, 4, 5]
  obtain ⟨hNodup, -, hRecorded⟩ := distinct_of_reachable (by decide) (by decide) hReachable
  exact ⟨_, hReachable, by decide, hNodup, hRecorded 2 512 true⟩

end SlotBank

end FactorMachine
