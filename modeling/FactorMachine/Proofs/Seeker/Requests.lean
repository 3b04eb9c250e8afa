import FactorMachine.Proofs.Seeker.Statements

/-!
# FactorMachine — one request after another

A builder is asked for programs again and again, and is told in between how the attempts went. What
it has been through is in its bank: which slot is where, how each has done, and how far the pointer
has come. A request may also fail, for a number that has no prime or for a program that is too
long, and if the slots had been chosen by then, they stay where they were moved.

None of this is ever in the way of the next request. The configuration stays the one that was
accepted, and the bank stays in rotation; this is `Sound`, and every builder that is `Reachable` is.
A sound builder gives a program for whatever it is asked, as long as its numbers and its addresses
have primes. The program was emitted for a number of slots that was known before any slot was
chosen, and just as many are chosen.

## Results

* `Sound.plan`         — what the bank hands out, for any program.
* `Sound.exists_build` — a sound builder gives a program, and for which slots.
* `Reachable.sound`    — a builder keeps its configuration and stays in rotation.
-/

namespace FactorMachine

-- ---------------------------------------------------------------------------
-- Assembling for the slots that were chosen
-- ---------------------------------------------------------------------------

/-- With a slot selected, every reference to a slot is to one of those selected. -/
theorem SlotRef.exists_resolve {selected : List Nat} (h : selected ≠ []) (slot : SlotRef) :
    ∃ a ∈ selected, slot.resolve selected = some a := by
  cases slot with
  | fallback => exact ⟨selected.head h, List.head_mem h, List.head?_eq_some_head h⟩
  | selected i =>
    cases hAt : selected[i]? with
    | some a => exact ⟨a, List.mem_of_getElem? hAt, by simp [SlotRef.resolve, hAt]⟩
    | none =>
      refine ⟨selected.getLast h, List.getLast_mem h, ?_⟩
      simp [SlotRef.resolve, hAt, List.getLast?_eq_some_getLast h]

theorem Assembler.here_eq {ss : List Statement} {assembler : Assembler}
    (h : (Assembler.performAll ss).run .empty = .ok () assembler) :
    assembler.here = (cellStatements ss).length := (Assembler.performAll_prefix h).size

namespace SeekerBuilder

open Seeker

variable {config : SeekerConfig} {protocol : ProtocolConfig} {b : SeekerBuilder}
  {target streak : Nat}

/-- The data cells are found if their labels were defined. -/
theorem exists_cellLayout {labels : List (String × Nat)}
    (h : ∀ name ∈ labelsAfter, ∃ address, labels.lookup name = some address) :
    ∃ cells, cellLayout labels = .ok cells := by
  have hResolve : ∀ name ∈ labelsAfter, ∃ address, resolveLabel labels name = .ok address := by
    intro name hMem
    obtain ⟨address, hLookup⟩ := h name hMem
    exact ⟨address, by rw [resolveLabel, hLookup]⟩
  obtain ⟨previous, hPrevious⟩ := hResolve previousCell (by decide)
  obtain ⟨failures, hFailures⟩ := hResolve failuresCell (by decide)
  obtain ⟨lastSlot, hLastSlot⟩ := hResolve lastSlotCell (by decide)
  obtain ⟨lastKind, hLastKind⟩ := hResolve lastKindCell (by decide)
  refine ⟨⟨previous, failures, lastSlot, lastKind⟩, ?_⟩
  unfold cellLayout
  rw [bind_ok hPrevious, bind_ok hFailures, bind_ok hLastSlot, bind_ok hLastKind]
  rfl

/-- A program is finished for slots whose addresses are within it. -/
theorem exists_assembled {selectedCount : Nat} {assembler : Assembler} {selected : List Nat}
    (hFeasible : Feasible (statements config protocol target selectedCount))
    (hAssemble : (Assembler.performAll (statements config protocol target selectedCount)).run
      .empty = .ok () assembler) (hSome : selected ≠ [])
    (hRange : ∀ a ∈ selected, 1 ≤ a ∧ a ≤ config.slotCount) :
    ∃ assembled cells, assembler.finish selected = .ok assembled ∧
      cellLayout assembled.labels = .ok cells := by
  have hSlots : ∀ slot, .pushSlot slot ∈ statements config protocol target selectedCount →
      ∃ address, slot.resolve selected = some address ∧ address ≠ 0 ∧ address < primeCount := by
    intro slot _
    obtain ⟨a, hMem, hResolve⟩ := slot.exists_resolve hSome
    have hInside := hRange a hMem
    have hLength := hFeasible.length
    have hCells := slotCount_lt_length config protocol target selectedCount
    exact ⟨a, hResolve, by omega, by omega⟩
  obtain ⟨assembled, hFinish⟩ := hFeasible.exists_finish hAssemble hSlots
  have hLookup : ∀ name ∈ labelsAfter, ∃ address, assembled.labels.lookup name = some address := by
    intro name hMem
    obtain ⟨code₁, code₂, -, -, hLabels, -⟩ := finish_parts hFinish
    have hDefined : name ∈ labelNames (statements config protocol target selectedCount) := by
      rw [labelNames_statements]
      exact mem_labelsFor _ (List.mem_append_right _ hMem)
    obtain ⟨address, hAt⟩ := labelAt_iff_mem.mpr (mem_labelNames.mp hDefined)
    rw [hLabels]
    exact ⟨address, ((Assembler.performAll_recorded hAssemble).labels name address).mpr hAt⟩
  obtain ⟨cells, hCells⟩ := exists_cellLayout hLookup
  exact ⟨assembled, cells, hFinish, hCells⟩

-- ---------------------------------------------------------------------------
-- Histories
-- ---------------------------------------------------------------------------

/-- The builders that a configuration leads to: the first one, and what any request and any outcome
makes of one. -/
inductive Reachable (config : SeekerConfig) (protocol : ProtocolConfig) : SeekerBuilder → Prop
  | start {b : SeekerBuilder} (h : SeekerBuilder.start config protocol = .ok b) :
      Reachable config protocol b
  | build {b : SeekerBuilder} (h : Reachable config protocol b) (target streak : Nat) :
      Reachable config protocol (stateAfter ((SeekerBuilder.build target streak).run b))
  | recordOutcome {b : SeekerBuilder} (h : Reachable config protocol b) (address : Nat)
      (instruction : Chunk) (success : Bool) :
      Reachable config protocol (b.recordOutcome address instruction success).2

/-- A builder with a configuration that was accepted, and with its bank in rotation. -/
structure Sound (config : SeekerConfig) (protocol : ProtocolConfig) (b : SeekerBuilder) :
    Prop where
  config_eq : b.config = config
  protocol_eq : b.protocol = protocol
  possible : layoutProblem? config = none
  rotating : b.bank.Rotating config.slotCount

theorem slotCount_pos (h : layoutProblem? config = none) : 1 ≤ config.slotCount := by
  rcases Nat.eq_zero_or_pos config.slotCount with hZero | hPos
  · rw [layoutProblem?, if_pos hZero] at h
    cases h
  · exact hPos

/-- A configuration is accepted if nothing is wrong with its layout. -/
theorem exists_start (protocol : ProtocolConfig) (h : layoutProblem? config = none) :
    ∃ b, start config protocol = .ok b := by
  have hNop : encodeOpcode .nop = .ok (Record.ofOpcode .nop).chunk :=
    encode_eq_ok_iff.mpr ⟨wellFormed_ofOpcode (by decide), rfl⟩
  exact ⟨_, by rw [start, h, hNop]⟩

theorem sound_start (h : start config protocol = .ok b) : b.Sound config protocol := by
  obtain ⟨⟨hConfig, hProtocol⟩, hPossible⟩ := start_spec h
  rw [hConfig] at hPossible
  refine ⟨hConfig, hProtocol, hPossible, ?_⟩
  unfold start at h
  rw [hPossible] at h
  dsimp only at h
  split at h
  · cases h
  · cases h
    exact SlotBank.rotating_start _ _ _ (slotCount_pos hPossible)

namespace Sound

/-- The number of slots that a program is emitted for. -/
theorem selectedCount_eq (h : b.Sound config protocol) (streak : Nat) :
    b.bank.selectedCount streak = min config.slotCount (1 + streak / 2) := by
  rw [SlotBank.selectedCount, h.rotating.length]

/-- Whatever program the bank plans for, it gives the next slots in rotation. -/
theorem plan (h : b.Sound config protocol) {assembler : Assembler}
    (hAssemble : (Assembler.performAll (statements b.config b.protocol target
      (b.bank.selectedCount streak))).run .empty = .ok () assembler) : ∃ bank,
    (SlotBank.plan streak assembler.here (b.lockedAddresses assembler.here)).run b.bank =
      .ok (SlotBank.upcoming config.slotCount b.bank.pointer
        (min config.slotCount (1 + streak / 2))) bank ∧ bank.Rotating config.slotCount := by
  have hLength : config.slotCount < assembler.here := by
    rw [Assembler.here_eq hAssemble, h.config_eq]
    exact slotCount_lt_length _ _ _ _
  have hLocks := b.locksOthers_lockedAddresses assembler.here
  rw [h.config_eq] at hLocks
  exact h.rotating.plan hLocks hLength streak

/-- A request leaves a builder sound, whether a program comes out or not. -/
theorem build (h : b.Sound config protocol) (target streak : Nat) :
    (stateAfter ((SeekerBuilder.build target streak).run b)).Sound config protocol := by
  rcases stateAfter_build b target streak with hSame | ⟨assembler, hAssemble, hAfter⟩
  · rw [hSame]
    exact h
  · obtain ⟨bank, hPlan, hRotating⟩ := h.plan hAssemble
    rw [hAfter, hPlan]
    exact ⟨h.config_eq, h.protocol_eq, h.possible, hRotating⟩

theorem recordOutcome (h : b.Sound config protocol) (address : Nat) (instruction : Chunk)
    (success : Bool) : (b.recordOutcome address instruction success).2.Sound config protocol :=
  ⟨h.config_eq, h.protocol_eq, h.possible,
    h.rotating.recordOutcome address instruction success⟩

/-- A sound builder gives a program, for the next slots in rotation. -/
theorem exists_build (h : b.Sound config protocol) (hConstants : Constants config protocol target)
    (hLength : (cellStatements (statements config protocol target
      (min config.slotCount (1 + streak / 2)))).length < primeCount) :
    ∃ seeker b', (SeekerBuilder.build target streak).run b = .ok seeker b' ∧
      seeker.selectedSlots = SlotBank.upcoming config.slotCount b.bank.pointer
        (min config.slotCount (1 + streak / 2)) ∧
      seeker.program.length = (cellStatements (statements config protocol target
        (min config.slotCount (1 + streak / 2)))).length := by
  have hPos := slotCount_pos h.possible
  have hFeasible := feasible_statements hConstants (Nat.min_le_left _ _) hLength
  obtain ⟨assembler, hAssemble⟩ := hFeasible.exists_performAll
  have hEmit : (Assembler.performAll (statements b.config b.protocol target
      (b.bank.selectedCount streak))).run .empty = .ok () assembler := by
    rw [h.config_eq, h.protocol_eq, h.selectedCount_eq]
    exact hAssemble
  obtain ⟨bank, hPlan, -⟩ := h.plan hEmit
  have hSome : SlotBank.upcoming config.slotCount b.bank.pointer
      (min config.slotCount (1 + streak / 2)) ≠ [] := by
    rw [← List.length_pos_iff_ne_nil, SlotBank.upcoming, List.length_map, List.length_range]
    omega
  obtain ⟨assembled, cells, hFinish, hCells⟩ :=
    exists_assembled hFeasible hAssemble hSome fun a => SlotBank.mem_upcoming hPos
  have hRealizes := finish_spec (Assembler.performAll_prefix hAssemble) hFinish
  exact ⟨_, _, build_eq hEmit hPlan hFinish hCells, rfl, hRealizes.length⟩

end Sound

/-- A builder keeps its configuration and stays in rotation. -/
theorem Reachable.sound (h : Reachable config protocol b) : b.Sound config protocol := by
  induction h with
  | start hStart => exact sound_start hStart
  | build _ target streak ih => exact ih.build target streak
  | recordOutcome _ address instruction success ih =>
    exact ih.recordOutcome address instruction success

end SeekerBuilder

/-- A goal-seeker with a single slot can be built. -/
theorem Seeker.exists_smallest : ∃ b seeker b',
    SeekerBuilder.start { slotCount := 1 } {} = .ok b ∧
    (SeekerBuilder.build 3 0).run b = .ok seeker b' ∧ seeker.selectedSlots = [1] := by
  obtain ⟨b, hStart⟩ : ∃ b, SeekerBuilder.start { slotCount := 1 } {} = .ok b :=
    SeekerBuilder.exists_start {} (by decide)
  have hConstants : Seeker.Constants { slotCount := 1 } {} 3 := by constructor <;> decide
  have hLength : (cellStatements (Seeker.statements { slotCount := 1 } {} 3
      (min 1 (1 + 0 / 2)))).length < primeCount := by decide +kernel
  obtain ⟨seeker, b', hBuild, hSelected, -⟩ :=
    (SeekerBuilder.sound_start hStart).exists_build hConstants hLength
  -- with a single slot there is nowhere else to go round to
  have hOnly : seeker.selectedSlots = [1] := by
    rw [hSelected, SlotBank.upcoming]
    simp [Nat.mod_one]
  exact ⟨b, seeker, b', hStart, hBuild, hOnly⟩

/-- The layout of a goal-seeker with a single slot. -/
theorem Seeker.exists_smallest_layout : ∃ b seeker b', ∃ l : Layout,
    SeekerBuilder.start { slotCount := 1 } {} = .ok b ∧
    (SeekerBuilder.build 3 0).run b = .ok seeker b' ∧ l.Describes seeker 3 ∧
    l.config = { slotCount := 1 } ∧ l.protocol = {} ∧ l.selected = [1] := by
  obtain ⟨b, seeker, b', hStart, hBuild, hSelected⟩ := exists_smallest
  obtain ⟨l, hConfig, hProtocol, hDescribes⟩ := exists_layout hStart hBuild
  exact ⟨b, seeker, b', l, hStart, hBuild, hDescribes, hConfig, hProtocol,
    hDescribes.selected ▸ hSelected⟩

end FactorMachine
