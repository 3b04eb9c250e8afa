import FactorMachine.Proofs.Seeker.Intact
import FactorMachine.Proofs.Seeker.Requests

/-!
# FactorMachine — one goal-seeker after another

Whatever a builder has been through, a program that it gives is as it would be from a new builder,
but for the slots that it may rewrite: it begins with an attempt at its target, its slots hold no
operation, its data cells hold what they are to hold at the start, and all the rest is instructions.
So what one program did to itself, and what the bank has learned from it, does not show in the
contents of the next.

## Results

* `Layout.Describes.fresh` — what a program holds before it runs.
* `rebuilds_fresh`         — so it is with every program, after any history.
-/

namespace FactorMachine

-- ---------------------------------------------------------------------------
-- Programs that have not run
-- ---------------------------------------------------------------------------

/-- A program that begins with an attempt at `target`, with no operation in its slots and with its
data cells as they are at the start. All the rest is instructions. -/
structure GoalSeeker.Fresh (s : GoalSeeker) (slotCount target : Nat) : Prop where
  attempt : DecodesTo s.program.toArray 0 (.push target)
  slots : ∀ a, 1 ≤ a → a ≤ slotCount → DecodesTo s.program.toArray a (.ofOpcode .nop)
  previousAttempt : readCell s.program.toArray s.cells.previousAttempt = some target
  failureCount : readCell s.program.toArray s.cells.failureCount = some 0
  lastSlot : readCell s.program.toArray s.cells.lastSlot = some 0
  lastKind : readCell s.program.toArray s.cells.lastKind = some Seeker.nopKind
  others : ∀ a < s.program.length, a ∉ s.cells.addresses →
    ∃ op operand, DecodesTo s.program.toArray a (.instruction op operand)

namespace Seeker

variable {l : Layout} {names : List String}

/-- The text holds instructions. -/
theorem Layout.exists_instruction_of_text
    (hText : IsText names (body l.config l.protocol l.selected.length)) {a : Nat} {r : Record}
    (h : l.text a = some r) : ∃ op operand, r = .instruction op operand := by
  unfold Layout.text at h
  split at h
  · obtain ⟨s, hAt, hRecord⟩ := Option.bind_eq_some_iff.mp h
    obtain ⟨hMem, hCell⟩ := List.mem_filter.mp (List.mem_of_getElem? hAt)
    obtain ⟨op, operand, hInstruction⟩ := (hText s hMem).exists_instruction hCell l.linking
    rw [hInstruction, Option.some.injEq] at hRecord
    exact ⟨op, operand, hRecord.symm⟩
  · cases h

/-- Whatever is not in a data cell is an instruction. -/
theorem Layout.exists_instruction
    (hText : IsText names (body l.config l.protocol l.selected.length)) {m : Contents} {a : Nat}
    {r : Record} (h : l.picture m a = some r)
    (hOutside : ∀ d : DataCell, a ≠ l.linking.label d.label) :
    ∃ op operand, r = .instruction op operand := by
  unfold Layout.picture at h
  split at h
  · cases h
    exact ⟨_, _, rfl⟩
  · split at h
    · cases h
      cases m.slots a with
      | nop => exact ⟨_, _, rfl⟩
      | add => exact ⟨_, _, rfl⟩
      | push => exact ⟨_, _, rfl⟩
    · split at h
      · exact exists_instruction_of_text hText h
      · -- behind the text there are only the data cells
        obtain ⟨d, hd, -⟩ := Option.map_eq_some_iff.mp h
        have hOffset := DataCell.offset_of_all hd
        refine absurd ?_ (hOutside d)
        rw [Layout.label_cell_eq]
        omega

/-- A goal-seeker that was built has not run yet. -/
theorem Layout.Describes.fresh {seeker : GoalSeeker} {target : Nat} (h : l.Describes seeker target)
    (hText : IsText names (body l.config l.protocol l.selected.length)) :
    seeker.Fresh l.config.slotCount target := by
  have hDecodes : ∀ {a r}, l.picture (.start target) a = some r →
      DecodesTo seeker.program.toArray a r := decodesTo_of_holds h.valid h.program
  have hCell : ∀ d : DataCell, readCell seeker.program.toArray (l.linking.label d.label) =
      some ((Contents.start target).cell d) := fun d => (hDecodes (l.picture_cell _ d)).readCell
  constructor
  · exact hDecodes (l.picture_zero _)
  · intro a hFirst hLast
    exact hDecodes (l.picture_slot _ hFirst hLast)
  · rw [h.cells]
    exact hCell .previous
  · rw [h.cells]
    exact hCell .failures
  · rw [h.cells]
    exact hCell .lastSlot
  · rw [h.cells]
    exact hCell .lastKind
  · intro a hInside hOutside
    rw [mem_addresses h, not_exists] at hOutside
    have hSome : (l.picture (.start target) a).isSome := by
      have hThere : seeker.program.toArray[a]?.isSome := by simpa using hInside
      rwa [h.program a, Option.isSome_map] at hThere
    obtain ⟨r, hRecord⟩ := Option.isSome_iff_exists.mp hSome
    obtain ⟨op, operand, rfl⟩ := Layout.exists_instruction hText hRecord hOutside
    exact ⟨op, operand, hDecodes hRecord⟩

end Seeker

/-- A program that a sound builder gives is one that has not run. -/
theorem SeekerBuilder.Sound.fresh {config : SeekerConfig} {protocol : ProtocolConfig}
    {b b' : SeekerBuilder} {target streak : Nat} {seeker : GoalSeeker}
    (h : b.Sound config protocol) (hConstants : Seeker.Constants config protocol target)
    (hBuild : (SeekerBuilder.build target streak).run b = .ok seeker b')
    (hCount : seeker.selectedSlots.length < primeCount) : seeker.Fresh config.slotCount target := by
  obtain ⟨rfl, rfl, hPossible, -⟩ := h
  obtain ⟨-, -, l, hConfig, hProtocol, hDescribes⟩ := Seeker.build_spec hPossible hBuild
  rw [← hConfig, ← hProtocol] at hConstants
  rw [hDescribes.selected] at hCount
  exact hConfig ▸ hDescribes.fresh (Seeker.isText_body hConstants hCount)

/-- **A builder goes on building.** Whatever programs it was asked for before, whether they came
out or not, and whatever outcomes it was told, its slots share out the addresses from one on. It
gives every program whose numbers and whose addresses have primes: for as many different slots as the
streak allows, and with the contents that a program begins with. -/
theorem rebuilds_fresh {config : SeekerConfig} {protocol : ProtocolConfig} {b : SeekerBuilder}
    (hReachable : SeekerBuilder.Reachable config protocol b) :
    (SlotBank.addresses b.bank.slots).Perm (List.range' 1 config.slotCount) ∧
    ∀ target streak, Seeker.Constants config protocol target →
      (cellStatements (Seeker.statements config protocol target
        (min config.slotCount (1 + streak / 2)))).length < primeCount →
      ∃ seeker b', (SeekerBuilder.build target streak).run b = .ok seeker b' ∧
        seeker.program.length = (cellStatements (Seeker.statements config protocol target
          (min config.slotCount (1 + streak / 2)))).length ∧
        seeker.selectedSlots.length = min config.slotCount (1 + streak / 2) ∧
        seeker.selectedSlots.Nodup ∧
        (∀ a ∈ seeker.selectedSlots, 1 ≤ a ∧ a ≤ config.slotCount) ∧
        seeker.Fresh config.slotCount target := by
  have hSound := hReachable.sound
  refine ⟨hSound.rotating.addresses, ?_⟩
  intro target streak hConstants hLength
  obtain ⟨seeker, b', hBuild, hSelected, hSize⟩ := hSound.exists_build hConstants hLength
  have hCount : seeker.selectedSlots.length = min config.slotCount (1 + streak / 2) := by
    rw [hSelected, SlotBank.upcoming, List.length_map, List.length_range]
  have hNodup : seeker.selectedSlots.Nodup := by
    rw [hSelected]
    exact SlotBank.nodup_upcoming (Nat.min_le_left _ _)
  have hRange : ∀ a ∈ seeker.selectedSlots, 1 ≤ a ∧ a ≤ config.slotCount := by
    rw [hSelected]
    exact fun a => SlotBank.mem_upcoming (SeekerBuilder.slotCount_pos hSound.possible)
  have hSlots := Seeker.slotCount_lt_length config protocol target
    (min config.slotCount (1 + streak / 2))
  have hFresh := hSound.fresh hConstants hBuild (by omega)
  exact ⟨seeker, b', hBuild, hSize, hCount, hNodup, hRange, hFresh⟩

/-- After a program for both of its slots and a failure in one of them, a builder gives another
program for both. -/
theorem rebuilds_fresh_both : ∃ b b₁ seeker b₂,
    SeekerBuilder.start { slotCount := 2 } {} = .ok b ∧
    b₁ = ((stateAfter ((SeekerBuilder.build 3 4).run b)).recordOutcome 1 81 false).2 ∧
    (SeekerBuilder.build 5 9).run b₁ = .ok seeker b₂ ∧ seeker.selectedSlots.length = 2 ∧
    seeker.Fresh 2 5 := by
  obtain ⟨b, hStart⟩ : ∃ b, SeekerBuilder.start { slotCount := 2 } {} = .ok b :=
    SeekerBuilder.exists_start {} (by decide)
  have hReachable := ((SeekerBuilder.Reachable.start hStart).build 3 4).recordOutcome 1 81 false
  have hConstants : Seeker.Constants { slotCount := 2 } {} 5 := by constructor <;> decide
  obtain ⟨-, hBuilds⟩ := rebuilds_fresh hReachable
  obtain ⟨seeker, b₂, hBuild, -, hCount, -, -, hFresh⟩ :=
    hBuilds 5 9 hConstants (by decide +kernel)
  exact ⟨b, _, seeker, b₂, hStart, rfl, hBuild, hCount, hFresh⟩

end FactorMachine
