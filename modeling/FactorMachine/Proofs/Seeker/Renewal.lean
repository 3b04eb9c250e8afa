import FactorMachine.Proofs.Seeker.Feedback
import FactorMachine.Proofs.Seeker.Requests

/-!
# FactorMachine — one program after another for the same configuration

How long a program is depends on the number of slots and on how many of them it may rewrite, and on
nothing else. So where there has been one program, there is another for any target with a prime, as
long as it rewrites no more slots: every number that a program pushes was pushed by the first one,
and the address of its last cell was found to have a prime.

That address is one less than the length, which leaves a length of exactly `primeCount` to be
excluded. But the length is a multiple of three as long as a single slot is rewritten, and
`primeCount` is none.

## Results

* `length_statements`    — the length of a program.
* `Layout.constants`     — what a program pushes has primes.
* `Layout.exists_build`  — there is a program for any other target.
-/

namespace FactorMachine

theorem length_cells_append (xs ys : List Statement) : (cellStatements (xs ++ ys)).length =
    (cellStatements xs).length + (cellStatements ys).length := by
  rw [cellStatements_append, List.length_append]

theorem length_cells_replicate (n : Nat) {s : Statement} (h : s.makesCell = true) :
    (cellStatements (List.replicate n s)).length = n := by
  rw [cellStatements, List.filter_replicate_of_pos h, List.length_replicate]

namespace Seeker

open Statement

-- ---------------------------------------------------------------------------
-- The length of a program
-- ---------------------------------------------------------------------------

section Length

variable {c : SeekerConfig} {p : ProtocolConfig} {target selectedCount : Nat}

theorem length_restart : (cellStatements (restart c)).length = c.slotCount + 3 := by
  have hSplit : restart c =
      [.push c.frameMarker] ++ List.replicate c.slotCount (.push 0) ++ jumpTo mainLabel := rfl
  have hZeros : (cellStatements (List.replicate c.slotCount (.push 0))).length = c.slotCount :=
    length_cells_replicate _ rfl
  rw [hSplit, length_cells_append, length_cells_append, hZeros]
  show 1 + c.slotCount + 2 = c.slotCount + 3
  omega

theorem length_trySlots (indices : List Nat) :
    (cellStatements (indices.flatMap trySlot)).length = 10 * indices.length := by
  induction indices with
  | nil => rfl
  | cons i rest ih =>
    have hOne : (cellStatements (trySlot i)).length = 10 := rfl
    rw [List.flatMap_cons, length_cells_append, ih, hOne, List.length_cons]
    omega

theorem length_mainPart : (cellStatements (mainPart c p target)).length = c.slotCount + 9 := by
  have hSlots : (cellStatements (List.replicate c.slotCount (.op .nop))).length = c.slotCount :=
    length_cells_replicate _ rfl
  simp only [mainPart, length_cells_append, hSlots]
  show 1 + c.slotCount + 3 + 2 + 3 = c.slotCount + 9
  omega

theorem length_cells_successPart : (cellStatements (successPart c)).length =
    c.slotCount + 43 := by
  unfold successPart
  rw [length_cells_append, length_restart]
  show 40 + (c.slotCount + 3) = c.slotCount + 43
  omega

theorem length_chooseSlot : (cellStatements (chooseSlot selectedCount)).length =
    10 * (selectedCount - 1) + 11 := by
  simp only [chooseSlot, length_cells_append, length_trySlots, List.length_range]
  show 2 + 10 * (selectedCount - 1) + 3 + 6 = 10 * (selectedCount - 1) + 11
  omega

theorem length_failurePart : (cellStatements (failurePart c p selectedCount)).length =
    c.slotCount + 10 * (selectedCount - 1) + 117 := by
  simp only [failurePart, length_cells_append, length_restart, length_chooseSlot]
  show 2 + 22 + 22 + (10 * (selectedCount - 1) + 11) + 40 + 3 + 6 + 8 + (c.slotCount + 3) =
    c.slotCount + 10 * (selectedCount - 1) + 117
  omega

/-- The length of a program, in cells. -/
theorem length_statements : (cellStatements (statements c p target selectedCount)).length =
    3 * c.slotCount + 10 * (selectedCount - 1) + 186 := by
  simp only [statements, length_cells_append, length_mainPart, length_cells_successPart,
    length_failurePart]
  show c.slotCount + 9 + (c.slotCount + 43) + (c.slotCount + 10 * (selectedCount - 1) + 117) +
    12 + 1 + 4 = 3 * c.slotCount + 10 * (selectedCount - 1) + 186
  omega

end Length

-- ---------------------------------------------------------------------------
-- Another program
-- ---------------------------------------------------------------------------

namespace Layout

variable (l : Layout) {target : Nat}

/-- The numbers that a program pushes were found to have primes. -/
theorem constants (hTarget : target < primeCount) : Constants l.config l.protocol target where
  target := hTarget
  successFeedback := l.push_lt (l.mem_text rfl (by simp [body]))
  stuckSignal := l.push_lt (l.mem_text rfl (by simp [body, failurePart, countFailure]))
  attemptModulus := l.modulus_lt
  attemptIncrement := l.increment_lt
  randomOffsetBound := l.offsetBound_lt
  maxFailuresBeforeStuck := l.push_lt (l.mem_text rfl (by simp [body, failurePart, countFailure]))
  frameMarker := l.push_lt (l.mem_text rfl (by simp [body, unwindPart]))

/-- A program that may rewrite a single slot is not too long. -/
theorem length_single_lt (target : Nat) :
    (cellStatements (statements l.config l.protocol target 1)).length < primeCount := by
  have hCount : primeCount = 1048576 := by decide
  -- the last of the data cells is pushed, and nothing comes after it
  have hLabel : l.linking.label lastKindCell < primeCount :=
    l.pushLabel_lt (l.mem_text rfl (by simp [body, successPart, storeCell]))
  have hLast : l.linking.label lastKindCell = l.config.slotCount + 1 +
      (cellStatements (body l.config l.protocol l.selected.length)).length + 3 :=
    l.label_cell .lastKind
  have hLength : (cellStatements (statements l.config l.protocol target l.selected.length)).length =
      _ := length_statements
  have hCells : (DataCell.all.map fun d =>
      Statement.data ((Contents.start target).cell d)).length = 4 := rfl
  rw [cellStatements_statements, List.length_cons, List.length_append, List.length_append,
    List.length_replicate, hCells] at hLength
  rw [length_statements]
  omega

/-- There is a program for any other target, if it rewrites a single slot. -/
theorem exists_build {b : SeekerBuilder} (h : b.Sound l.config l.protocol)
    (hTarget : target < primeCount) :
    ∃ seeker b', (SeekerBuilder.build target 0).run b = .ok seeker b' := by
  have hSlots := SeekerBuilder.slotCount_pos h.possible
  have hSingle : min l.config.slotCount (1 + 0 / 2) = 1 := by omega
  have hLength := l.length_single_lt target
  rw [← hSingle] at hLength
  obtain ⟨seeker, b', hBuild, -⟩ := h.exists_build (l.constants hTarget) hLength
  exact ⟨seeker, b', hBuild⟩

end Layout

end Seeker

end FactorMachine
