import FactorMachine.Proofs.Outcome
import FactorMachine.Proofs.Seeker.Pointer
import FactorMachine.Proofs.Sorting

/-!
# FactorMachine — a bank of slots

What a bank does with its slots, whatever addresses they have. The pointer goes to addresses that
are free. A slot that is moved to another's address trades places with it, so that the addresses as
a whole stay as they were; one that is moved to an address without a slot leaves its own.

## Results

* `nextTarget_spec` — where the pointer goes.
* `addresses_moveSlot`, `addresses_moveSlot_free` — what moving a slot does to the addresses.
* `recordOutcome_cases` — to which slot an outcome goes.
* `recordOutcome_frame` — what an outcome leaves as it was.
* `run_place`       — what placing one slot makes of a bank.
-/

namespace FactorMachine

-- ---------------------------------------------------------------------------
-- The pointer
-- ---------------------------------------------------------------------------

/-- The next address is one that is neither zero nor locked. -/
theorem nextTarget_spec {pointer programLength target : Nat} {locked : List Nat}
    (h : nextTarget pointer programLength locked = .ok target) :
    target ≠ 0 ∧ target < programLength ∧ target ∉ locked := by
  rcases nextTarget_cases pointer programLength locked with ⟨found, hFound, hNext⟩ | ⟨hNone, -⟩
  · rw [hFound] at h
    cases h
    obtain ⟨hLt, hNonzero, hFree⟩ := mem_eligible.mp hNext.mem
    exact ⟨hNonzero, hLt, hFree⟩
  · rw [hNone] at h
    cases h

-- ---------------------------------------------------------------------------
-- Trading places
-- ---------------------------------------------------------------------------

namespace SlotBank

/-- Where the slots are. -/
def addresses (slots : List Slot) : List Nat := slots.map Slot.address

theorem addresses_start (places : List Nat) (instruction : Chunk)
    (historyLimit modificationLimit : Nat) :
    addresses (start places instruction historyLimit modificationLimit).slots = places := by
  simp [addresses, start, Slot.start, Function.comp_def]

theorem addresses_modify (slots : List Slot) (i a : Nat) :
    addresses (slots.modify i fun slot => { slot with address := a }) =
      (addresses slots).set i a := by
  refine List.ext_getElem? fun j => ?_
  simp only [addresses, List.getElem?_map, List.getElem?_modify, List.getElem?_set']
  by_cases hSame : i = j
  · subst hSame
    cases slots[i]? <;> simp
  · simp [hSame]

/-- Slots trade places, so their addresses stay the same as a whole. -/
theorem addresses_moveSlot {slots : List Slot} {target : Nat} (i : Nat)
    (hTarget : target ∈ addresses slots) :
    (addresses (moveSlot slots i target)).Perm (addresses slots) := by
  unfold moveSlot
  cases hSlot : slots[i]? with
  | none => exact .refl _
  | some slot =>
    obtain ⟨other, hMem, hOther⟩ := List.mem_map.mp hTarget
    have hSome : (slots.findIdx? (·.address == target)).isSome = true := by
      rw [List.findIdx?_isSome, List.any_eq_true]
      exact ⟨other, hMem, beq_iff_eq.mpr hOther⟩
    obtain ⟨j, hFound⟩ := Option.isSome_iff_exists.mp hSome
    obtain ⟨hj, hThere, -⟩ := List.findIdx?_eq_some_iff_getElem.mp hFound
    obtain ⟨hi, rfl⟩ := List.getElem?_eq_some_iff.mp hSlot
    simp only [hFound, addresses_modify]
    have hj' : j < (addresses slots).length := by simpa [addresses] using hj
    have hi' : i < (addresses slots).length := by simpa [addresses] using hi
    have hSwap := List.set_set_perm hj' hi'
    simpa [addresses, beq_iff_eq.mp hThere] using hSwap

/-- A slot that moves to an address without a slot leaves its own. -/
theorem addresses_moveSlot_free {slots : List Slot} {target : Nat} (i : Nat)
    (hFree : target ∉ addresses slots) :
    addresses (moveSlot slots i target) = (addresses slots).set i target := by
  unfold moveSlot
  cases hSlot : slots[i]? with
  | none =>
    have hOutside : (addresses slots).length ≤ i := by
      simpa [addresses] using List.getElem?_eq_none_iff.mp hSlot
    rw [List.set_eq_of_length_le hOutside]
  | some slot =>
    have hNone : slots.findIdx? (·.address == target) = none := by
      rw [List.findIdx?_eq_none_iff]
      intro other hMem
      exact beq_false_of_ne fun hSame => hFree (List.mem_map.mpr ⟨other, hMem, hSame⟩)
    simp only [hNone, addresses_modify]

-- ---------------------------------------------------------------------------
-- Outcomes
-- ---------------------------------------------------------------------------

/-- An outcome goes to the first slot at its address, or there is none. -/
theorem recordOutcome_cases (b : SlotBank) (address : Nat) (instruction : Chunk)
    (success : Bool) :
    (b.recordOutcome address instruction success = (false, b) ∧ address ∉ addresses b.slots) ∨
    ∃ before slot after, b.slots = before ++ slot :: after ∧ slot.address = address ∧
      b.recordOutcome address instruction success = (true,
        { b with slots := before ++ { slot.record success with instruction } :: after }) := by
  unfold recordOutcome
  cases hFound : b.slots.findIdx? (·.address == address) with
  | none =>
    refine .inl ⟨rfl, fun hMem => ?_⟩
    obtain ⟨slot, hSlot, hAddress⟩ := List.mem_map.mp hMem
    have hOther := List.findIdx?_eq_none_iff.mp hFound slot hSlot
    rw [hAddress, beq_self_eq_true] at hOther
    cases hOther
  | some i =>
    obtain ⟨hi, hAddress, -⟩ := List.findIdx?_eq_some_iff_getElem.mp hFound
    refine .inr ⟨b.slots.take i, b.slots[i], b.slots.drop (i + 1), ?_, beq_iff_eq.mp hAddress, ?_⟩
    · rw [List.getElem_cons_drop, List.take_append_drop]
    · show (true, { b with
        slots := b.slots.modify i fun slot => { slot.record success with instruction } }) = _
      rw [List.modify_eq_take_cons_drop hi]

/-- An outcome moves no slot. -/
theorem addresses_recordOutcome (b : SlotBank) (address : Nat) (instruction : Chunk)
    (success : Bool) :
    addresses (b.recordOutcome address instruction success).2.slots = addresses b.slots := by
  rcases recordOutcome_cases b address instruction success with
    ⟨hSame, -⟩ | ⟨before, slot, after, hSlots, -, hRecorded⟩
  · rw [hSame]
  · rw [hRecorded, hSlots]
    simp [addresses, Slot.record]

/-- An outcome changes nothing but slots. -/
theorem recordOutcome_frame (b : SlotBank) (address : Nat) (instruction : Chunk) (success : Bool) :
    ∃ slots, (b.recordOutcome address instruction success).2 = { b with slots } := by
  rcases recordOutcome_cases b address instruction success with ⟨hSame, -⟩ | ⟨_, _, _, -, -, hSame⟩
  · exact ⟨b.slots, congrArg Prod.snd hSame⟩
  · exact ⟨_, congrArg Prod.snd hSame⟩

-- ---------------------------------------------------------------------------
-- Planning
-- ---------------------------------------------------------------------------

/-- A slot is placed at the next address, if there is one. -/
theorem run_place (b : SlotBank) (i programLength : Nat) (locked : List Nat) :
    (place i programLength locked).run b =
      match nextTarget b.pointer programLength locked with
      | .ok target => .ok target
        ⟨moveSlot b.slots i target, target, b.modifications.push target⟩
      | .error error => .error error b := by
  rw [place, run_bind_ok (EStateM.run_get b)]
  cases nextTarget b.pointer programLength locked <;> rfl

/-- As many slots are chosen as the streak of failures allows. -/
theorem length_slotsToUpdate (b : SlotBank) (streak : Nat) :
    (b.slotsToUpdate streak).length = b.selectedCount streak := by
  rw [slotsToUpdate, List.length_take, (perm_stableSort _ _).length_eq, List.length_range]
  exact Nat.min_eq_left (Nat.min_le_left _ _)

/-- Planning places one chosen slot after another. -/
theorem run_plan (b : SlotBank) (streak programLength : Nat) (locked : List Nat) :
    (plan streak programLength locked).run b =
      ((b.slotsToUpdate streak).mapM fun i => place i programLength locked).run b :=
  run_bind_ok rfl

end SlotBank

end FactorMachine
