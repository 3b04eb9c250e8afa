import FactorMachine.Assembly.Patch
import FactorMachine.Proofs.Outcome
import FactorMachine.Proofs.Sorting

/-!
# FactorMachine — patches are written all or not at all

Patches are sorted by their addresses before any of them is looked at, and all of them are looked at
before one is written. So the one that is complained of is the one with the lowest address, and then
the program has not been touched. Otherwise every patch is written, and a cell ends with the last of
the patches for it as they were given: sorting keeps those in order, since none of them is before
another. What the order of patches for different cells was cannot be seen in the end.

## Results

* `run_writeAll`           — what patches in a row leave in each cell.
* `run_apply_refused`      — one that cannot be written stops all of them.
* `run_apply`              — otherwise all of them are written.
* `patches_all_or_nothing` — both together, whatever the order of different cells is.
-/

namespace FactorMachine

/-- The patches for one cell, as they were given. -/
def patchesAt (patches : List Patch) (address : Nat) : List Patch :=
  patches.filter (·.address == address)

/-- What a cell holds after patches in a row: the chunk of the last one for it, or what it held. -/
def patchedCell (patches : List Patch) (program : Array Chunk) (address : Nat) : Option Chunk :=
  match (patchesAt patches address).getLast? with
  | some p => some p.chunk
  | none => program[address]?

variable {program : Array Chunk} {patches others : List Patch} {locked : List Nat} {address : Nat}
  {p : Patch}

-- ---------------------------------------------------------------------------
-- The order of writing
-- ---------------------------------------------------------------------------

theorem Patch.isRefused_iff :
    p.isRefused program locked = true ↔ program.size ≤ p.address ∨ p.address ∈ locked := by
  rw [isRefused, Bool.or_eq_true, decide_eq_true_eq, List.contains_iff_mem]

theorem mem_orderedPatches : p ∈ orderedPatches patches ↔ p ∈ patches :=
  (perm_stableSort _ patches).mem_iff

theorem pairwise_orderedPatches (patches : List Patch) :
    (orderedPatches patches).Pairwise fun p q => p.address ≤ q.address := by
  refine pairwise_stableSort (r := fun p q : Patch => p.address ≤ q.address)
    (fun _ _ _ => Nat.le_trans) ?_ patches
  intro p q
  split
  · rename_i hBefore
    exact Nat.le_of_lt (of_decide_eq_true hBefore)
  · rename_i hBefore
    simpa using hBefore

/-- Sorting keeps the patches for one cell in order. -/
theorem patchesAt_orderedPatches (patches : List Patch) (address : Nat) :
    patchesAt (orderedPatches patches) address = patchesAt patches address := by
  refine filter_stableSort (fun p q hp hq => ?_) patches
  have hSame : p.address = q.address := (beq_iff_eq.mp hp).trans (beq_iff_eq.mp hq).symm
  exact decide_eq_false (hSame ▸ Nat.lt_irrefl _)

/-- The order of writing does not depend on the order in which different cells were given. -/
theorem orderedPatches_congr (h : ∀ address, patchesAt others address = patchesAt patches address) :
    orderedPatches others = orderedPatches patches := by
  refine eq_of_pairwise_of_filter (pairwise_orderedPatches others)
    (pairwise_orderedPatches patches) fun address => ?_
  have hOthers := patchesAt_orderedPatches others address
  rw [h, ← patchesAt_orderedPatches patches] at hOthers
  exact hOthers

-- ---------------------------------------------------------------------------
-- The last patch for a cell
-- ---------------------------------------------------------------------------

theorem patchedCell_orderedPatches (patches : List Patch) :
    patchedCell (orderedPatches patches) program address = patchedCell patches program address := by
  rw [patchedCell, patchesAt_orderedPatches, ← patchedCell]

theorem patchedCell_of_absent (h : ∀ p ∈ patches, p.address ≠ address) :
    patchedCell patches program address = program[address]? := by
  have hNone : patchesAt patches address = [] := by
    rw [patchesAt, List.filter_eq_nil_iff]
    intro p hp hSame
    exact h p hp (beq_iff_eq.mp hSame)
  rw [patchedCell, hNone]
  rfl

theorem patchedCell_of_last {before after : List Patch}
    (hLast : ∀ q ∈ after, q.address ≠ p.address) :
    patchedCell (before ++ p :: after) program p.address = some p.chunk := by
  have hNone : patchesAt after p.address = [] := by
    rw [patchesAt, List.filter_eq_nil_iff]
    intro q hq hSame
    exact hLast q hq (beq_iff_eq.mp hSame)
  have hEnd : patchesAt (before ++ p :: after) p.address =
      patchesAt before p.address ++ [p] := by
    rw [patchesAt, List.filter_append, List.filter_cons, if_pos (beq_self_eq_true _)]
    exact congrArg (fun rest => patchesAt before p.address ++ p :: rest) hNone
  rw [patchedCell, hEnd, List.getLast?_concat]

/-- Writing the first of several patches leaves the others to be written. -/
theorem patchedCell_cons (hInside : address < program.size) :
    patchedCell (p :: patches) program address =
      patchedCell patches (program.setIfInBounds p.address p.chunk) address := by
  unfold patchedCell patchesAt
  by_cases hHere : p.address = address
  · rw [List.filter_cons, if_pos (beq_iff_eq.mpr hHere), List.getLast?_cons]
    cases (patches.filter (·.address == address)).getLast? with
    | some q => rfl
    | none =>
      rw [Array.getElem?_setIfInBounds, if_pos hHere, if_pos (hHere ▸ hInside)]
      rfl
  · rw [List.filter_cons, if_neg (fun hSame => hHere (beq_iff_eq.mp hSame)),
      Array.getElem?_setIfInBounds, if_neg hHere]

-- ---------------------------------------------------------------------------
-- Writing
-- ---------------------------------------------------------------------------

namespace Patching

/-- Patches in a row leave each cell as the last one for it says. -/
theorem run_writeAll (patches : List Patch) (program : Array Chunk) :
    ∃ changed, (writeAll patches).run program = .ok () changed ∧ changed.size = program.size ∧
      ∀ address < program.size, changed[address]? = patchedCell patches program address := by
  induction patches generalizing program with
  | nil => exact ⟨program, rfl, rfl, fun _ _ => rfl⟩
  | cons p rest ih =>
    obtain ⟨changed, hRest, hSize, hCells⟩ := ih (program.setIfInBounds p.address p.chunk)
    rw [Array.size_setIfInBounds] at hSize hCells
    refine ⟨changed, hRest, hSize, fun address hInside => ?_⟩
    rw [hCells address hInside, patchedCell_cons hInside]

/-- A patch that cannot be written stops all of them, and the one with the lowest address is named. -/
theorem run_apply_refused (hRefused : ∃ p ∈ patches, p.isRefused program locked = true) :
    ∃ bad ∈ patches, bad.isRefused program locked = true ∧
      (∀ p ∈ patches, p.isRefused program locked = true → bad.address ≤ p.address) ∧
      (apply patches locked).run program =
        .error (.invalidTarget (.unpatchable bad.address)) program := by
  cases hFind : (orderedPatches patches).find? (·.isRefused program locked) with
  | none =>
    obtain ⟨p, hp, hBad⟩ := hRefused
    exact absurd hBad (List.find?_eq_none.mp hFind p (mem_orderedPatches.mpr hp))
  | some bad =>
    obtain ⟨hBad, before, after, hSplit, hFine⟩ := List.find?_eq_some_iff_append.mp hFind
    refine ⟨bad, mem_orderedPatches.mp (List.mem_of_find?_eq_some hFind), hBad, ?_, ?_⟩
    · intro p hp hAlso
      have hOrder := pairwise_orderedPatches patches
      rw [hSplit] at hOrder
      have hMem := mem_orderedPatches.mpr hp
      rw [hSplit] at hMem
      -- those before the one that was found can be written
      rcases List.mem_append.mp hMem with hBefore | hRest
      · have hGood := hFine p hBefore
        rw [hAlso] at hGood
        cases hGood
      · rcases List.mem_cons.mp hRest with rfl | hAfter
        · exact Nat.le_refl _
        · exact (List.pairwise_cons.mp (List.pairwise_append.mp hOrder).2.1).1 p hAfter
    · rw [apply, run_bind_ok (EStateM.run_get program), hFind]
      rfl

/-- If all of them can be written, all of them are. -/
theorem run_apply (hFine : ∀ p ∈ patches, p.isRefused program locked = false) :
    ∃ changed, (apply patches locked).run program = .ok patches.length changed ∧
      changed.size = program.size ∧
      ∀ address < program.size, changed[address]? = patchedCell patches program address := by
  have hFind : (orderedPatches patches).find? (·.isRefused program locked) = none := by
    rw [List.find?_eq_none]
    intro p hp hBad
    rw [hFine p (mem_orderedPatches.mp hp)] at hBad
    cases hBad
  have hLength : (orderedPatches patches).length = patches.length :=
    (perm_stableSort _ patches).length_eq
  obtain ⟨changed, hWrite, hSize, hCells⟩ := run_writeAll (orderedPatches patches) program
  refine ⟨changed, ?_, hSize, ?_⟩
  · rw [apply, run_bind_ok (EStateM.run_get program), hFind, ← hLength]
    exact run_bind_ok hWrite
  · intro address hInside
    rw [hCells address hInside, patchedCell_orderedPatches]

end Patching

/-- **Patches are written all or not at all.** If the address of one is outside the program or locked,
the program stays as it is, and the lowest such address is named. Otherwise the answer is how many
patches there were, a cell with patches holds the chunk of the last one for it, and any other cell,
a locked one in particular, holds what it held. Only the order of patches for one and the same cell
makes a difference: where this is kept, any other order of the patches gives the same outcome. -/
theorem patches_all_or_nothing (program : Array Chunk) (patches : List Patch) (locked : List Nat) :
    ((∃ p ∈ patches, program.size ≤ p.address ∨ p.address ∈ locked) →
      ∃ bad ∈ patches, (program.size ≤ bad.address ∨ bad.address ∈ locked) ∧
        (∀ p ∈ patches, program.size ≤ p.address ∨ p.address ∈ locked →
          bad.address ≤ p.address) ∧
        (Patching.apply patches locked).run program =
          .error (.invalidTarget (.unpatchable bad.address)) program) ∧
    ((∀ p ∈ patches, p.address < program.size ∧ p.address ∉ locked) →
      ∃ changed, (Patching.apply patches locked).run program = .ok patches.length changed ∧
        changed.size = program.size ∧
        (∀ before p after, patches = before ++ p :: after →
          (∀ q ∈ after, q.address ≠ p.address) → changed[p.address]? = some p.chunk) ∧
        (∀ address, (∀ p ∈ patches, p.address ≠ address) →
          changed[address]? = program[address]?) ∧
        ∀ address ∈ locked, changed[address]? = program[address]?) ∧
    ∀ others, (∀ address, patchesAt others address = patchesAt patches address) →
      (Patching.apply others locked).run program = (Patching.apply patches locked).run program := by
  simp only [← Patch.isRefused_iff]
  refine ⟨Patching.run_apply_refused, fun hFine => ?_, fun others hSame => ?_⟩
  · have hNone : ∀ p ∈ patches, p.isRefused program locked = false := by
      intro p hp
      rw [Bool.eq_false_iff, ne_eq, Patch.isRefused_iff, not_or, Nat.not_le]
      exact hFine p hp
    obtain ⟨changed, hRun, hSize, hCells⟩ := Patching.run_apply hNone
    have hOther : ∀ address, (∀ p ∈ patches, p.address ≠ address) →
        changed[address]? = program[address]? := by
      intro address hAbsent
      by_cases hInside : address < program.size
      · rw [hCells address hInside, patchedCell_of_absent hAbsent]
      · rw [Array.getElem?_eq_none (by omega), Array.getElem?_eq_none (by omega)]
    refine ⟨changed, hRun, hSize, ?_, hOther, fun address hLocked => ?_⟩
    · rintro before p after rfl hLast
      rw [hCells p.address (hFine p (by simp)).1, patchedCell_of_last hLast]
    · refine hOther address fun p hp hHere => ?_
      exact (hFine p hp).2 (hHere ▸ hLocked)
  · unfold Patching.apply
    rw [orderedPatches_congr hSame]

/-- Two patches for cell 1 and one for cell 0, in two orders; cell 2 is locked. -/
theorem patches_all_or_nothing_twice : ∃ changed : Array Chunk,
    (Patching.apply [⟨1, 81⟩, ⟨0, 16⟩, ⟨1, 625⟩] [2]).run #[512, 512, 2401] = .ok 3 changed ∧
    (Patching.apply [⟨1, 81⟩, ⟨1, 625⟩, ⟨0, 16⟩] [2]).run #[512, 512, 2401] = .ok 3 changed ∧
    changed[1]? = some 625 ∧ changed[2]? = some 2401 ∧
    (Patching.apply [⟨1, 81⟩, ⟨2, 16⟩] [2]).run #[512, 512, 2401] =
      .error (.invalidTarget (.unpatchable 2)) #[512, 512, 2401] := by
  obtain ⟨-, hWritten, hOrder⟩ := patches_all_or_nothing #[512, 512, 2401]
    [⟨1, 81⟩, ⟨0, 16⟩, ⟨1, 625⟩] [2]
  obtain ⟨hRefused, -, -⟩ := patches_all_or_nothing #[512, 512, 2401] [⟨1, 81⟩, ⟨2, 16⟩] [2]
  obtain ⟨changed, hRun, -, hLast, -, hLocked⟩ := hWritten (by decide)
  obtain ⟨bad, hBad, hWhy, -, hStopped⟩ := hRefused (by decide)
  have hOther := hOrder [⟨1, 81⟩, ⟨1, 625⟩, ⟨0, 16⟩] fun
    | 0 => rfl
    | 1 => rfl
    | _ + 2 => rfl
  refine ⟨changed, hRun, hOther.trans hRun, ?_, hLocked 2 (by decide), ?_⟩
  · exact hLast [⟨1, 81⟩, ⟨0, 16⟩] ⟨1, 625⟩ [] rfl (by decide)
  · obtain rfl : bad = ⟨2, 16⟩ := by
      rcases List.mem_cons.mp hBad with rfl | hBad
      · exact absurd hWhy (by decide)
      · simpa using hBad
    exact hStopped

end FactorMachine
