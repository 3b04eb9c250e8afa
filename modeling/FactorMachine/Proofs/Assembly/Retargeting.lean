import FactorMachine.Assembly.Patch
import FactorMachine.Proofs.Assembly.SinglePass
import FactorMachine.Proofs.Chunk.Least
import FactorMachine.Proofs.Engine.Steps

/-!
# FactorMachine — a transfer that is given another target

A control transfer takes its address from a push in front of it, so it is given another target by
giving that push another operand. Several things may speak against it, and each is looked at before
the one cell is written: the cell must be a push, in whatever form it is written, the new operand
must fit into a push, and for a transfer the target must be a cell of the program, the push must
stand before the transfer, and the transfer must be one. If nothing does, one cell has changed, and
an engine that comes to it goes to the new target.

## Results

* `run_retargetPush`      — when a push gets its operand, and what is left otherwise.
* `run_retargetJump`      — when the push of a transfer does.
* `retargeting_redirects` — both, and where an engine goes then.
-/

namespace FactorMachine

variable {program changed : Array Chunk} {address operand pushAddress transfer target : Nat}

-- ---------------------------------------------------------------------------
-- Cells
-- ---------------------------------------------------------------------------

/-- A cell is a push. -/
def IsPush (program : Array Chunk) (address : Nat) : Prop :=
  ∃ operand, DecodesTo program address (.push operand)

/-- A program that differs from another one in a single cell, which is a push of `operand` now. -/
structure PushedAt (program : Array Chunk) (address operand : Nat) (changed : Array Chunk) :
    Prop where
  size : changed.size = program.size
  other : ∀ i, i ≠ address → changed[i]? = program[i]?
  push : DecodesTo changed address (.push operand)

theorem PushedAt.decodesTo (h : PushedAt program address operand changed) {i : Nat} {r : Record}
    (hOther : i ≠ address) (hCell : DecodesTo program i r) : DecodesTo changed i r := by
  obtain ⟨chunk, hChunk, hDecode⟩ := hCell
  exact ⟨chunk, (h.other i hOther).trans hChunk, hDecode⟩

theorem pushedAt_of_lt (hInside : address < program.size) (hOperand : operand < primeCount) :
    PushedAt program address operand
      (program.setIfInBounds address (Record.push operand).chunk) where
  size := Array.size_setIfInBounds
  other i hOther := by rw [Array.getElem?_setIfInBounds, if_neg (Ne.symm hOther)]
  push := by
    have hWellFormed : (Record.push operand).WellFormed := ⟨operand, rfl, hOperand⟩
    refine ⟨_, ?_, hWellFormed.decode_chunk⟩
    rw [Array.getElem?_setIfInBounds, if_pos rfl, if_pos hInside]

theorem opcodeAt_eq_ok_iff {op : Opcode} : opcodeAt program address = .ok (some op) ↔
    ∃ operand, DecodesTo program address (.instruction op operand) := by
  unfold opcodeAt
  constructor
  · intro h
    split at h
    · cases h
    · rename_i chunk hChunk
      split at h
      · rename_i found operand hDecode
        cases h
        exact ⟨operand, chunk, hChunk, hDecode⟩
      · cases h
      · cases h
  · rintro ⟨operand, chunk, hChunk, hDecode⟩
    rw [hChunk]
    dsimp only
    rw [hDecode]

theorem opcodeAt_push_iff : opcodeAt program address = .ok (some .push) ↔ IsPush program address := by
  rw [opcodeAt_eq_ok_iff]
  constructor
  · rintro ⟨operand, chunk, hChunk, hDecode⟩
    obtain ⟨-, ⟨k, rfl, -⟩, -⟩ := chunk_dvd_of_decode hDecode
    exact ⟨k, chunk, hChunk, hDecode⟩
  · rintro ⟨k, hCell⟩
    exact ⟨some k, hCell⟩

-- ---------------------------------------------------------------------------
-- Changes
-- ---------------------------------------------------------------------------

/-- What may be carried out makes one cell a push; what may not leaves the program as it is. -/
def Retargets (may : Prop) (program : Array Chunk) (address operand : Nat) :
    EStateM.Result AssemblyError (Array Chunk) Unit → Prop
  | .ok _ changed => may ∧ PushedAt program address operand changed
  | .error _ left => ¬ may ∧ left = program

/-- The target is a cell, and the push that feeds the transfer before it can hold its address. -/
structure Retargetable (program : Array Chunk) (pushAddress transfer target : Nat) : Prop where
  inside : target < program.size
  order : pushAddress < transfer
  transfer : ∃ op, op.isTransfer = true ∧
    ∃ operand, DecodesTo program transfer (.instruction op operand)
  push : IsPush program pushAddress
  fits : target < primeCount

theorem Retargetable.exists_opcode (h : Retargetable program pushAddress transfer target) :
    ∃ op, op.isTransfer = true ∧ opcodeAt program transfer = .ok (some op) := by
  obtain ⟨op, hTransfer, hCell⟩ := h.transfer
  exact ⟨op, hTransfer, opcodeAt_eq_ok_iff.mpr hCell⟩

theorem run_retargetPush (program : Array Chunk) (address operand : Nat) :
    Retargets (IsPush program address ∧ operand < primeCount) program address operand
      ((Patching.retargetPush address operand).run program) := by
  rw [Patching.retargetPush, run_bind_ok (EStateM.run_get program)]
  split
  · rename_i e hOpcode
    refine ⟨fun hMay => ?_, rfl⟩
    rw [opcodeAt_push_iff.mpr hMay.1] at hOpcode
    cases hOpcode
  · rename_i hOpcode
    have hPush := opcodeAt_push_iff.mp hOpcode
    split
    · rename_i chunk hEncode
      have hOperand := exists_encodePush_iff.mp ⟨chunk, hEncode⟩
      obtain ⟨-, rfl⟩ := encode_eq_ok_iff.mp hEncode
      obtain ⟨-, old, hOld, -⟩ := id hPush
      exact ⟨⟨hPush, hOperand⟩,
        pushedAt_of_lt (Array.getElem?_eq_some_iff.mp hOld).1 hOperand⟩
    · rename_i e hEncode
      refine ⟨fun hMay => ?_, rfl⟩
      obtain ⟨chunk, hOk⟩ := exists_encodePush_iff.mpr hMay.2
      rw [hOk] at hEncode
      cases hEncode
  · rename_i other hNot hOpcode
    refine ⟨fun hMay => ?_, rfl⟩
    rw [opcodeAt_push_iff.mpr hMay.1] at hOpcode
    cases hOpcode
    exact hNot rfl

theorem run_retargetJump (program : Array Chunk) (pushAddress transfer target : Nat) :
    Retargets (Retargetable program pushAddress transfer target) program pushAddress target
      ((Patching.retargetJump pushAddress transfer target).run program) := by
  rw [Patching.retargetJump, run_bind_ok (EStateM.run_get program)]
  split
  · rename_i hRefused
    rw [Bool.or_eq_true, decide_eq_true_eq, decide_eq_true_eq] at hRefused
    refine ⟨fun hMay => ?_, rfl⟩
    have hInside := hMay.inside
    have hOrder := hMay.order
    omega
  · rename_i hAccepted
    rw [Bool.or_eq_true, decide_eq_true_eq, decide_eq_true_eq, not_or, Nat.not_le,
      Nat.not_le] at hAccepted
    obtain ⟨hInside, hOrder⟩ := hAccepted
    split
    · rename_i e hOpcode
      refine ⟨fun hMay => ?_, rfl⟩
      obtain ⟨op, -, hFound⟩ := hMay.exists_opcode
      rw [hOpcode] at hFound
      cases hFound
    · rename_i hOpcode
      refine ⟨fun hMay => ?_, rfl⟩
      obtain ⟨op, -, hFound⟩ := hMay.exists_opcode
      rw [hOpcode] at hFound
      cases hFound
    · rename_i op hOpcode
      split
      · rename_i hTransfer
        have hPush := run_retargetPush program pushAddress target
        cases hRun : (Patching.retargetPush pushAddress target).run program with
        | ok _ changed =>
          rw [hRun] at hPush
          obtain ⟨⟨hIsPush, hFits⟩, hPushed⟩ := hPush
          exact ⟨⟨hInside, hOrder, ⟨op, hTransfer, opcodeAt_eq_ok_iff.mp hOpcode⟩, hIsPush, hFits⟩,
            hPushed⟩
        | error e left =>
          rw [hRun] at hPush
          exact ⟨fun hMay => hPush.1 ⟨hMay.push, hMay.fits⟩, hPush.2⟩
      · rename_i hOther
        refine ⟨fun hMay => ?_, rfl⟩
        obtain ⟨op', hTransfer, hFound⟩ := hMay.exists_opcode
        rw [hOpcode] at hFound
        cases hFound
        exact hOther hTransfer

-- ---------------------------------------------------------------------------
-- Engines
-- ---------------------------------------------------------------------------

section Engines

variable {σ : Type}

/-- The engine has come to a cell of a program, is free to run, and has room for one more word. -/
structure Poised (program : Array Chunk) (address : Nat) (e : Engine σ) : Prop where
  cells : e.memory.cells = program
  here : e.ip = address
  free : e.phase.canStep = true
  room : e.stack.length < e.maxStackDepth

variable [RandomSource σ] {e : Engine σ}

/-- What a transfer that was given another target has come to. -/
theorem pushedAt_of_retargetJump
    (h : (Patching.retargetJump pushAddress transfer target).run program = .ok () changed) :
    target < changed.size ∧ PushedAt program pushAddress target changed := by
  have hRetargets := run_retargetJump program pushAddress transfer target
  rw [h] at hRetargets
  obtain ⟨hMay, hPushed⟩ := hRetargets
  exact ⟨hPushed.size ▸ hMay.inside, hPushed⟩

/-- **A retargeted transfer goes to its new target.** A push is given another operand exactly if the
cell is a push and the operand fits into one, and a transfer is given another target exactly if also
the target is a cell of the program and there is a transfer behind the push. Then that one cell is a
push of the new value, and no other cell has changed; otherwise none has. An engine that comes to a
push with its new target and the jump or call behind it, with room for the address, is at the target
two steps later; one that comes to a branch is there three steps later if the condition on top is
zero, and behind the branch if it is not. -/
theorem retargeting_redirects (program : Array Chunk) (pushAddress : Nat) :
    (∀ operand, Retargets (IsPush program pushAddress ∧ operand < primeCount) program pushAddress
      operand ((Patching.retargetPush pushAddress operand).run program)) ∧
    (∀ transfer target, Retargets (Retargetable program pushAddress transfer target) program
      pushAddress target ((Patching.retargetJump pushAddress transfer target).run program)) ∧
    ∀ transfer target changed,
      (Patching.retargetJump pushAddress transfer target).run program = .ok () changed →
      ∀ e : Engine σ, Poised changed pushAddress e →
      (transfer = pushAddress + 1 → DecodesTo program transfer (.ofOpcode .jump) →
        e.steps 2 = .ok { e.passed [.executed e.ip .push, .executed (e.ip + 1) .jump] with
          ip := target }) ∧
      (transfer = pushAddress + 1 → DecodesTo program transfer (.ofOpcode .call) →
        e.callStack.length < e.maxStackDepth →
        e.steps 2 = .ok { e.passed [.executed e.ip .push, .executed (e.ip + 1) .call] with
          ip := target, callStack := (e.ip + 2) :: e.callStack }) ∧
      (transfer = pushAddress + 2 → DecodesTo program (pushAddress + 1) (.ofOpcode .swap) →
        DecodesTo program transfer (.ofOpcode .jumpIfZero) → ∀ c rest, e.stack = c :: rest →
        e.steps 3 = .ok { e.passed [.executed e.ip .push, .executed (e.ip + 1) .swap,
            .executed (e.ip + 2) .jumpIfZero] with
          ip := if c = 0 then target else e.ip + 3, stack := rest }) := by
  refine ⟨run_retargetPush program pushAddress, run_retargetJump program pushAddress, ?_⟩
  intro transfer target changed hRun e hPoised
  obtain ⟨hTarget, hPushed⟩ := pushedAt_of_retargetJump hRun
  obtain ⟨hCells, rfl, hFree, hRoom⟩ := hPoised
  subst hCells
  -- the cells behind the push are as they were
  have hKept : ∀ {i : Nat} {r : Record}, e.ip < i → DecodesTo program i r →
      DecodesTo e.memory.cells i r := fun hBehind => hPushed.decodesTo (Nat.ne_of_gt hBehind)
  refine ⟨?_, ?_, ?_⟩
  · rintro rfl hJump
    exact Engine.steps_push_jump hFree hPushed.push hRoom hTarget (hKept (by omega) hJump)
  · rintro rfl hCall hCalls
    exact Engine.steps_push_call hFree hPushed.push hRoom hTarget (hKept (by omega) hCall) hCalls
  · rintro rfl hSwap hJump c rest hStack
    exact Engine.steps_push_branch hFree hPushed.push hRoom hTarget (hKept (by omega) hSwap)
      (hKept (by omega) hJump) hStack

/-- A branch to address zero that is made to go to the end: with zero on top it does, and otherwise
it goes on behind itself. -/
theorem retargeting_redirects_branch : ∃ changed : Array Chunk, ∃ e e' f f' : Engine (List Nat),
    (Patching.retargetJump 0 2 4).run #[512, 279841, 13845841, 20151121, 2401] = .ok () changed ∧
    PushedAt #[512, 279841, 13845841, 20151121, 2401] 0 4 changed ∧
    Poised changed 0 e ∧ e.stack = [0] ∧ e.steps 3 = .ok e' ∧ e'.ip = 4 ∧
    Poised changed 0 f ∧ f.stack = [7] ∧ f.steps 3 = .ok f' ∧ f'.ip = 3 := by
  obtain ⟨-, hJump, hEngine⟩ := retargeting_redirects (σ := List Nat)
    #[512, 279841, 13845841, 20151121, 2401] 0
  obtain ⟨changed, hRun⟩ : ∃ changed,
      (Patching.retargetJump 0 2 4).run #[512, 279841, 13845841, 20151121, 2401] =
        .ok () changed := ⟨_, rfl⟩
  have hPushed := hJump 2 4
  rw [hRun] at hPushed
  let e (c : Word) : Engine (List Nat) := .start changed.toList [c] 2 0 []
  have hPoised (c : Word) : Poised changed 0 (e c) :=
    { cells := Array.toArray_toList
      here := rfl
      free := rfl
      room := Nat.one_lt_two }
  have hSteps (c : Word) := (hEngine 2 4 changed hRun (e c) (hPoised c)).2.2 rfl
    ⟨279841, rfl, by decide +kernel⟩ ⟨13845841, rfl, by decide +kernel⟩ c [] rfl
  exact ⟨changed, e 0, _, e 7, _, hRun, hPushed.2, hPoised 0, rfl, hSteps 0, rfl, hPoised 7, rfl,
    hSteps 7, rfl⟩

end Engines

end FactorMachine
