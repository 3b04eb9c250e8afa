import FactorMachine.Proofs.Seeker.Bank
import FactorMachine.Proofs.Window
import Mathlib.Data.List.Forall2
import Mathlib.Data.List.Nodup

/-!
# FactorMachine — planning as a whole

A plan places one chosen slot after another, and each time it moves a slot and the pointer before it
asks for the next address. Still it comes to nothing only if it has not begun: if there is an
address for the first slot there is one for each of them.

A slot that is placed may drive another away, but only one that is where it goes. As long as the
addresses of a plan are different, no slot that it has placed is moved again. `Places` follows a
plan from slot to slot, so what holds of a plan is proved by induction on it.

## Results

* `exists_places`       — one address is enough for a whole plan.
* `Places.sits`         — each slot stays where it was placed.
* `plan_spec`           — how many slots are chosen, and from which addresses.
* `HandsOut.shows`      — what a bank remembers of the addresses that it has handed out.
* `plan_all_or_nothing` — when a plan fails, and what comes of one that does not.
-/

namespace FactorMachine

namespace SlotBank

-- ---------------------------------------------------------------------------
-- Moving one slot
-- ---------------------------------------------------------------------------

theorem length_addresses (slots : List Slot) : (addresses slots).length = slots.length :=
  List.length_map _

theorem length_moveSlot (slots : List Slot) (i target : Nat) :
    (moveSlot slots i target).length = slots.length := by
  unfold moveSlot
  split
  · rfl
  · dsimp only
    split <;> simp only [List.length_modify]

/-- A slot that moves drives no slot away but one that is at its target. -/
theorem exists_vacated {slots : List Slot} {i : Nat} (target : Nat) (hi : i < slots.length) :
    ∃ vacated : List Nat, addresses (moveSlot slots i target) = vacated.set i target ∧
      vacated.length = slots.length ∧
      ∀ j : Nat, (addresses slots)[j]? ≠ some target → vacated[j]? = (addresses slots)[j]? := by
  unfold moveSlot
  rw [List.getElem?_eq_getElem hi]
  dsimp only
  cases hFound : slots.findIdx? (·.address == target) with
  | none =>
    simp only [addresses_modify]
    exact ⟨addresses slots, rfl, length_addresses slots, fun _ _ => rfl⟩
  | some k =>
    obtain ⟨hk, hThere, -⟩ := List.findIdx?_eq_some_iff_getElem.mp hFound
    simp only [addresses_modify]
    refine ⟨_, rfl, by rw [List.length_set, length_addresses], fun j hOther => ?_⟩
    refine List.getElem?_set_ne fun hSame => hOther ?_
    subst hSame
    rw [addresses, List.getElem?_map, List.getElem?_eq_getElem hk]
    exact congrArg some (beq_iff_eq.mp hThere)

theorem address_moveSlot_self {slots : List Slot} {i : Nat} (target : Nat)
    (hi : i < slots.length) : (addresses (moveSlot slots i target))[i]? = some target := by
  obtain ⟨vacated, hMoved, hLength, -⟩ := exists_vacated target hi
  rw [hMoved, List.getElem?_set_self (hLength ▸ hi)]

theorem address_moveSlot_of_ne {slots : List Slot} {i j a target : Nat} (hi : i < slots.length)
    (hOther : j ≠ i) (hAway : a ≠ target) (h : (addresses slots)[j]? = some a) :
    (addresses (moveSlot slots i target))[j]? = some a := by
  obtain ⟨vacated, hMoved, -, hKept⟩ := exists_vacated target hi
  rw [hMoved, List.getElem?_set_ne hOther.symm, hKept j, h]
  rw [h]
  exact fun hSame => hAway (Option.some.inj hSame)

-- ---------------------------------------------------------------------------
-- Placing slots in a row
-- ---------------------------------------------------------------------------

variable {programLength : Nat} {locked : List Nat}

/-- The bank after the slot at a place of it has moved. -/
def placed (b : SlotBank) (i target : Nat) : SlotBank :=
  ⟨moveSlot b.slots i target, target, b.modifications.push target⟩

/-- The slots at the chosen places get these addresses one after another. -/
inductive Places (programLength : Nat) (locked : List Nat) :
    SlotBank → List Nat → List Nat → SlotBank → Prop
  | done (b : SlotBank) : Places programLength locked b [] [] b
  | next {b b' : SlotBank} {i target : Nat} {chosen selected : List Nat} :
      NextEligible programLength locked b.pointer target →
      Places programLength locked (b.placed i target) chosen selected b' →
      Places programLength locked b (i :: chosen) (target :: selected) b'

/-- One address is enough for a whole plan. -/
theorem exists_places (hSome : eligible programLength locked ≠ ∅) (chosen : List Nat) :
    ∀ b : SlotBank, ∃ selected b',
      (chosen.mapM fun i => place i programLength locked).run b = .ok selected b' ∧
        Places programLength locked b chosen selected b' := by
  induction chosen with
  | nil => exact fun b => ⟨[], b, rfl, .done b⟩
  | cons i chosen ih =>
    intro b
    rcases nextTarget_cases b.pointer programLength locked with
      ⟨target, hFound, hNext⟩ | ⟨-, hNone⟩
    · obtain ⟨selected, b', hRun, hPlaces⟩ := ih (b.placed i target)
      have hPlace : (place i programLength locked).run b = .ok target (b.placed i target) := by
        rw [run_place, hFound]
        rfl
      refine ⟨target :: selected, b', ?_, .next hNext hPlaces⟩
      rw [List.mapM_cons, run_bind_ok hPlace, run_bind_ok hRun]
      rfl
    · exact absurd hNone hSome

section Places

variable {b b' : SlotBank} {chosen selected : List Nat}
  (h : Places programLength locked b chosen selected b')
include h

theorem Places.length : selected.length = chosen.length := by
  induction h with
  | done b => rfl
  | next _ _ ih => exact congrArg (· + 1) ih

/-- The pointer goes from each address to the next one. -/
theorem Places.isChain : (b.pointer :: selected).IsChain (NextEligible programLength locked) := by
  induction h with
  | done b => exact .singleton b.pointer
  | next hNext _ ih => exact .cons_cons hNext ih

theorem Places.mem : ∀ a ∈ selected, a ∈ eligible programLength locked := by
  induction h with
  | done b => exact nofun
  | next hNext _ ih => exact List.forall_mem_cons.mpr ⟨hNext.mem, ih⟩

theorem Places.pointer : b'.pointer = selected.getLast?.getD b.pointer := by
  induction h with
  | done b => rfl
  | next _ _ ih =>
    rw [ih, List.getLast?_cons]
    rfl

theorem Places.modifications :
    b'.modifications = selected.foldl Window.push b.modifications := by
  induction h with
  | done b => rfl
  | next _ _ ih => exact ih

/-- A slot that is not chosen stays, unless its address is handed out. -/
theorem Places.keeps (hRange : ∀ i ∈ chosen, i < b.slots.length) {j a : Nat} (hOther : j ∉ chosen)
    (hAway : a ∉ selected) (hThere : (addresses b.slots)[j]? = some a) :
    (addresses b'.slots)[j]? = some a := by
  induction h with
  | done b => exact hThere
  | @next b b' i target chosen selected _ _ ih =>
    obtain ⟨hi, hRest⟩ := List.forall_mem_cons.mp hRange
    rw [List.mem_cons, not_or] at hOther hAway
    obtain ⟨hFirst, hOther⟩ := hOther
    obtain ⟨hTarget, hAway⟩ := hAway
    refine ih (fun k hk => ?_) hOther hAway (address_moveSlot_of_ne hi hFirst hTarget hThere)
    rw [placed, length_moveSlot]
    exact hRest k hk

/-- Each slot stays where it was placed, if no address is handed out twice. -/
theorem Places.sits (hRange : ∀ i ∈ chosen, i < b.slots.length) (hChosen : chosen.Nodup)
    (hSelected : selected.Nodup) :
    List.Forall₂ (fun i a => (addresses b'.slots)[i]? = some a) chosen selected := by
  induction h with
  | done b => exact .nil
  | @next b b' i target chosen selected _ hPlaces ih =>
    obtain ⟨hi, hRest⟩ := List.forall_mem_cons.mp hRange
    obtain ⟨hOnce, hChosen⟩ := List.nodup_cons.mp hChosen
    obtain ⟨hFresh, hSelected⟩ := List.nodup_cons.mp hSelected
    have hRange' : ∀ k ∈ chosen, k < (b.placed i target).slots.length := by
      intro k hk
      rw [placed, length_moveSlot]
      exact hRest k hk
    exact .cons (hPlaces.keeps hRange' hOnce hFresh (address_moveSlot_self target hi))
      (ih hRange' hChosen hSelected)

end Places

-- ---------------------------------------------------------------------------
-- Plans
-- ---------------------------------------------------------------------------

/-- The chosen places are different places of the bank. -/
theorem slotsToUpdate_spec (b : SlotBank) (streak : Nat) :
    (b.slotsToUpdate streak).Nodup ∧ ∀ i ∈ b.slotsToUpdate streak, i < b.slots.length := by
  have hPerm := perm_stableSort (fun i j => b.scoreAt i < b.scoreAt j) (List.range b.slots.length)
  refine ⟨(hPerm.nodup_iff.mpr List.nodup_range).sublist (List.take_sublist _ _), fun i hi => ?_⟩
  exact List.mem_range.mp (hPerm.mem_iff.mp (List.mem_of_mem_take hi))

/-- Planning fails before it has begun, or not at all. -/
theorem plan_cases (b : SlotBank) (streak programLength : Nat) (locked : List Nat) :
    (∃ selected b', (plan streak programLength locked).run b = .ok selected b' ∧
      Places programLength locked b (b.slotsToUpdate streak) selected b' ∧
      ¬ (b.slots ≠ [] ∧ eligible programLength locked = ∅)) ∨
    ((plan streak programLength locked).run b =
        .error (.invalidTarget (.allProtected programLength)) b ∧
      b.slots ≠ [] ∧ eligible programLength locked = ∅) := by
  rw [run_plan]
  by_cases hSome : eligible programLength locked = ∅
  · cases hChosen : b.slotsToUpdate streak with
    | nil =>
      have hLength := b.length_slotsToUpdate streak
      rw [hChosen, selectedCount, List.length_nil] at hLength
      have hNone : b.slots = [] := List.length_eq_zero_iff.mp (by omega)
      exact .inl ⟨[], b, rfl, .done b, fun h => h.1 hNone⟩
    | cons i chosen =>
      have hBank : b.slots ≠ [] := by
        intro hNone
        have hRange := (b.slotsToUpdate_spec streak).2 i (hChosen ▸ List.mem_cons_self)
        rw [hNone] at hRange
        exact Nat.not_lt_zero i hRange
      refine .inr ⟨?_, hBank, hSome⟩
      rcases nextTarget_cases b.pointer programLength locked with
        ⟨target, -, hNext⟩ | ⟨hRefused, -⟩
      · exact absurd (hSome ▸ hNext.mem) (Finset.notMem_empty target)
      · have hPlace : (place i programLength locked).run b =
            .error (.invalidTarget (.allProtected programLength)) b := by
          rw [run_place, hRefused]
        rw [List.mapM_cons, run_bind_error hPlace]
  · obtain ⟨selected, b', hRun, hPlaces⟩ := exists_places hSome (b.slotsToUpdate streak) b
    exact .inl ⟨selected, b', hRun, hPlaces, fun h => hSome h.2⟩

/-- A plan that succeeded has placed the chosen slots. -/
theorem places_of_plan {b b' : SlotBank} {streak : Nat} {selected : List Nat}
    (h : (plan streak programLength locked).run b = .ok selected b') :
    Places programLength locked b (b.slotsToUpdate streak) selected b' := by
  rcases plan_cases b streak programLength locked with ⟨_, _, hOk, hPlaces, -⟩ | ⟨hError, -⟩
  · rw [h] at hOk
    cases hOk
    exact hPlaces
  · rw [h] at hError
    cases hError

theorem eq_of_plan_error {b b' : SlotBank} {streak : Nat} {error : AssemblyError}
    (h : (plan streak programLength locked).run b = .error error b') : b' = b := by
  rcases plan_cases b streak programLength locked with ⟨_, _, hOk, -⟩ | ⟨hError, -⟩
  · rw [h] at hOk
    cases hOk
  · rw [h] at hError
    cases hError
    rfl

/-- As many slots are chosen as the streak of failures allows, at addresses that are free. -/
theorem plan_spec {b b' : SlotBank} {streak : Nat} {selected : List Nat}
    (h : (plan streak programLength locked).run b = .ok selected b') :
    selected.length = b.selectedCount streak ∧
      ∀ a ∈ selected, a ≠ 0 ∧ a < programLength ∧ a ∉ locked := by
  have hPlaces := places_of_plan h
  refine ⟨hPlaces.length.trans (b.length_slotsToUpdate streak), fun a ha => ?_⟩
  obtain ⟨hLt, hNonzero, hFree⟩ := mem_eligible.mp (hPlaces.mem a ha)
  exact ⟨hNonzero, hLt, hFree⟩

-- ---------------------------------------------------------------------------
-- What was handed out
-- ---------------------------------------------------------------------------

/-- The banks that one leads to, each with the addresses that were handed out on the way. -/
inductive HandsOut (first : SlotBank) : List Nat → SlotBank → Prop
  | start : HandsOut first [] first
  | plan {handed selected locked : List Nat} {b b' : SlotBank} {streak programLength : Nat} :
      HandsOut first handed b →
      (SlotBank.plan streak programLength locked).run b = .ok selected b' →
      HandsOut first (handed ++ selected) b'
  | refused {handed locked : List Nat} {b b' : SlotBank} {streak programLength : Nat}
      {error : AssemblyError} : HandsOut first handed b →
      (SlotBank.plan streak programLength locked).run b = .error error b' → HandsOut first handed b'
  | recordOutcome {handed : List Nat} {b : SlotBank} (address : Nat) (instruction : Chunk)
      (success : Bool) : HandsOut first handed b →
      HandsOut first handed (b.recordOutcome address instruction success).2

variable {places : List Nat} {instruction : Chunk} {historyLimit modificationLimit : Nat}

/-- A bank remembers the last of the addresses that it has handed out. -/
theorem HandsOut.shows {handed : List Nat} {b : SlotBank}
    (h : HandsOut (SlotBank.start places instruction historyLimit modificationLimit) handed b) :
    b.modifications.Shows modificationLimit handed := by
  induction h with
  | start => exact Window.shows_empty modificationLimit
  | plan _ hRun ih =>
    rw [(places_of_plan hRun).modifications]
    exact ih.pushAll _
  | refused _ hRun ih => exact (eq_of_plan_error hRun) ▸ ih
  | @recordOutcome _ b address instruction success _ ih =>
    obtain ⟨slots, hFrame⟩ := b.recordOutcome_frame address instruction success
    rw [hFrame]
    exact ih

end SlotBank

end FactorMachine
