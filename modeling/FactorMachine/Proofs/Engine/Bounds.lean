import FactorMachine.Proofs.Engine.Dialogue
import FactorMachine.Proofs.Engine.Parts

/-!
# FactorMachine — an engine stays within its bounds

Whatever a program does to itself, and whatever it is given, its engine stays within bounds that
are fixed when the program is loaded: the number of cells, the addresses that it goes to and
returns to, and the height of either stack. A stored fault and the errored phase go together.

The address that a call leaves behind is the one after a cell, so it is never zero, and it may be
the end of the program: a program that calls in its last cell returns to its end and stops.

## Results

* `OnOperands.reworks`   — work on operands changes only the operand stack and the random source.
* `Effect.inBounds`      — no effect leads out of bounds.
* `inBounds_executeNext` — nor does whatever is fetched.
* `sound_of_reachable`   — every engine in use is within its bounds.
-/

namespace FactorMachine

namespace Engine

variable {σ : Type}

/-- The second engine is the first one after some work on operands. The stack grows only up to its
limit. -/
structure Reworked (e e' : Engine σ) : Prop where
  same : e' = { e with stack := e'.stack, random := e'.random }
  height : e'.stack.length ≤ max e.stack.length e.maxStackDepth

theorem Reworked.refl (e : Engine σ) : e.Reworked e := ⟨rfl, Nat.le_max_left _ _⟩

theorem Reworked.trans {a b c : Engine σ} (h : a.Reworked b) (h' : b.Reworked c) :
    a.Reworked c := by
  have hDepth : b.maxStackDepth = a.maxStackDepth := by rw [h.same]
  refine ⟨by rw [h'.same, h.same], h'.height.trans ?_⟩
  rw [hDepth]
  exact max_le h.height (Nat.le_max_right _ _)

/-- The bounds of an engine that was loaded with a program of `length` cells and an operand stack
of `height` words. -/
structure InBounds (length height depth : Nat) (e : Engine σ) : Prop where
  size : e.memory.size = length
  ip : e.ip ≤ length
  returns : ∀ a ∈ e.callStack, 1 ≤ a ∧ a ≤ length
  calls : e.callStack.length ≤ depth
  height : e.stack.length ≤ max height depth
  limit : e.maxStackDepth = depth

/-- No fault has been met. -/
structure Faultless (e : Engine σ) : Prop where
  fault : e.fault = none
  phase : e.phase ≠ .errored

/-- An engine within its bounds, which has a fault exactly in the errored phase. -/
structure Sound (length height depth : Nat) (e : Engine σ) : Prop
    extends InBounds length height depth e where
  fault : e.fault.isSome ↔ e.phase = .errored

end Engine

open Operation

variable {σ : Type} {length height depth : Nat} {e e' : Engine σ}

namespace Engine

theorem InBounds.reworked (h : e.InBounds length height depth) (hWork : e.Reworked e') :
    e'.InBounds length height depth := by
  have hHeight : e'.stack.length ≤ max height depth :=
    hWork.height.trans (max_le h.height (h.limit ▸ Nat.le_max_right _ _))
  rw [hWork.same]
  exact ⟨h.size, h.ip, h.returns, h.calls, hHeight, h.limit⟩

theorem Faultless.reworked (h : e.Faultless) (hWork : e.Reworked e') : e'.Faultless := by
  rw [hWork.same]
  exact ⟨h.fault, h.phase⟩

end Engine

/-- A number that a word stands for is below the limit. -/
theorem Word.lt_of_toNatBelow? {limit n : Nat} {v : Word} (h : v.toNatBelow? limit = some n) :
    n < limit := by
  unfold Word.toNatBelow? at h
  split at h
  · rename_i hRange
    cases h
    exact (Int.toNat_lt hRange.1).mpr hRange.2
  · cases h

/-- Writing to a cell makes no cell. -/
theorem Memory.size_write? (m : Memory) (a : Nat) (chunk : Chunk) :
    ((m.write? a chunk).getD m).size = m.size := by
  unfold Memory.write?
  split
  · exact Array.size_setIfInBounds
  · rfl

-- ---------------------------------------------------------------------------
-- One instruction
-- ---------------------------------------------------------------------------

/-- Work on operands changes only the operand stack and the random numbers. -/
theorem Operation.OnOperands.reworks [RandomSource σ] {α : Type} {x : Operation σ α}
    (h : OnOperands x) : ∀ e : Engine σ, e.Reworked (stateAfter (x.run e)) := by
  -- one case for each part; the parts that only read leave the engine as it is
  induction h with
  | done a => exact Engine.Reworked.refl
  | fault fault => exact Engine.Reworked.refl
  | @andThen α β x f _ _ ihx ihf =>
    intro e
    have hFirst := ihx e
    cases hRun : x.run e with
    | ok a e' =>
      rw [hRun] at hFirst
      rw [run_bind_ok hRun]
      exact hFirst.trans (ihf a e')
    | error fault e' =>
      rw [hRun] at hFirst
      rwa [run_bind_error hRun]
  | push v =>
    intro e
    rw [push_run]
    split
    · exact .refl e
    · rename_i hRoom
      exact ⟨rfl, (Nat.lt_of_not_le hRoom).trans_le (Nat.le_max_right _ _)⟩
  | pop address op =>
    intro e
    rw [pop_run]
    split
    · exact .refl e
    · rename_i hStack
      refine ⟨rfl, Nat.le_trans ?_ (Nat.le_max_left _ _)⟩
      rw [hStack]
      exact Nat.le_succ _
  | top address op =>
    intro e
    rw [top_run]
    split <;> exact .refl e
  | swapTop address op =>
    intro e
    rw [swapTop_run]
    split
    · exact .refl e
    · exact ⟨rfl, Nat.zero_le _⟩
    · rename_i hStack
      refine ⟨rfl, Nat.le_trans ?_ (Nat.le_max_left _ _)⟩
      rw [hStack]
      exact Nat.le_refl _
  | requireWords n fault =>
    intro e
    rw [requireWords_run]
    split <;> exact .refl e
  | toAddress v =>
    intro e
    rw [toAddress_run]
    split <;> exact .refl e
  | readCell address =>
    intro e
    rw [readCell_run]
    split <;> exact .refl e
  | drawBelow bound => exact fun e => ⟨rfl, Nat.le_max_left _ _⟩

/-- No effect leads out of bounds. The instruction pointer is past a cell when it comes to it, so
a call leaves no zero behind. -/
theorem Effect.inBounds (effect : Effect) (h : e.InBounds length height depth)
    (hPast : 1 ≤ e.ip) : (stateAfter (effect.perform.run e)).InBounds length height depth := by
  rw [run_perform]
  cases effect with
  | proceed => exact h
  | print v => exact ⟨h.size, h.ip, h.returns, h.calls, h.height, h.limit⟩
  | await => exact ⟨h.size, h.ip, h.returns, h.calls, h.height, h.limit⟩
  | halt => exact ⟨h.size, h.ip, h.returns, h.calls, h.height, h.limit⟩
  | jump target =>
    simp only [outcome]
    split
    · rename_i a hTarget
      have hAddress : a ≤ length := h.size ▸ (Word.lt_of_toNatBelow? hTarget).le
      exact ⟨h.size, hAddress, h.returns, h.calls, h.height, h.limit⟩
    · exact h
  | call target =>
    simp only [outcome]
    split
    · rename_i a hTarget
      split
      · exact h
      · rename_i hRoom
        have hAddress : a ≤ length := h.size ▸ (Word.lt_of_toNatBelow? hTarget).le
        have hCalls : e.callStack.length + 1 ≤ depth := h.limit ▸ Nat.lt_of_not_le hRoom
        refine ⟨h.size, hAddress, ?_, hCalls, h.height, h.limit⟩
        exact List.forall_mem_cons.mpr ⟨⟨hPast, h.ip⟩, h.returns⟩
    · exact h
  | ret =>
    simp only [outcome]
    split
    · exact h
    · rename_i a rest hCalls
      obtain ⟨hTarget, hRest⟩ := List.forall_mem_cons.mp (hCalls ▸ h.returns)
      have hLength : rest.length + 1 ≤ depth := by
        have hCallsLength := h.calls
        rwa [hCalls, List.length_cons] at hCallsLength
      exact ⟨h.size, hTarget.2, hRest, Nat.le_of_succ_le hLength, h.height, h.limit⟩
  | poke target value =>
    simp only [outcome]
    split
    · refine ⟨?_, h.ip, h.returns, h.calls, h.height, h.limit⟩
      exact (Memory.size_write? _ _ _).trans h.size
    · exact h
    · exact h

/-- No effect is a fault that is stored. -/
theorem Effect.faultless (effect : Effect) (h : e.Faultless) :
    (stateAfter (effect.perform.run e)).Faultless := by
  rw [run_perform]
  cases effect with
  | await => exact ⟨h.fault, nofun⟩
  | halt => exact ⟨h.fault, nofun⟩
  | proceed => exact h
  | print v => exact ⟨h.fault, h.phase⟩
  | jump target | call target | ret | poke target value =>
    simp only [outcome]
    repeat' split
    all_goals exact ⟨h.fault, h.phase⟩

/-- An instruction that is past its own cell keeps the engine within its bounds, and stores no
fault. -/
theorem Operation.Instruction.inBounds [RandomSource σ] {op : Opcode}
    {x : Operation σ (Option Word)} (hInstruction : Instruction op x) :
    ∀ {e : Engine σ}, e.InBounds length height depth → e.Faultless → 1 ≤ e.ip →
      (stateAfter (x.run e)).InBounds length height depth ∧ (stateAfter (x.run e)).Faultless := by
  induction hInstruction with
  | effect effect _ =>
    intro e h hFaultless hPast
    exact ⟨effect.inBounds h hPast, effect.faultless hFaultless⟩
  | @work α x f hWork _ ih =>
    intro e h hFaultless hPast
    have hReworked := hWork.reworks e
    cases hRun : x.run e with
    | ok a e' =>
      rw [hRun, stateAfter] at hReworked
      rw [run_bind_ok hRun]
      refine ih a (h.reworked hReworked) (hFaultless.reworked hReworked) ?_
      rw [hReworked.same]
      exact hPast
    | error fault e' =>
      rw [hRun] at hReworked
      rw [run_bind_error hRun]
      exact ⟨h.reworked hReworked, hFaultless.reworked hReworked⟩

theorem inBounds_executeNext [RandomSource σ] (h : e.InBounds length height depth)
    (hFaultless : e.Faultless) :
    (stateAfter (executeNext.run e)).InBounds length height depth ∧
      (stateAfter (executeNext.run e)).Faultless := by
  rw [executeNext_eq]
  have hLt : e.fetch ≠ .missing → e.ip + 1 ≤ length := fun hFetch =>
    h.size ▸ Engine.ip_lt_of_fetch hFetch
  cases hFetch : e.fetch with
  | missing =>
    exact ⟨⟨h.size, h.ip, h.returns, h.calls, h.height, h.limit⟩, hFaultless.fault, nofun⟩
  | degenerate =>
    have hNext := hLt (by rw [hFetch]; exact nofun)
    exact ⟨⟨h.size, hNext, h.returns, h.calls, h.height, h.limit⟩,
      hFaultless.fault, hFaultless.phase⟩
  | faulty fault => exact ⟨h, hFaultless⟩
  | instruction op operand =>
    have hNext := hLt (by rw [hFetch]; exact nofun)
    exact (instruction_execute e.ip op operand).inBounds
      ⟨h.size, hNext, h.returns, h.calls, h.height, h.limit⟩
      ⟨hFaultless.fault, hFaultless.phase⟩ (Nat.le_add_left 1 e.ip)

-- ---------------------------------------------------------------------------
-- Calls
-- ---------------------------------------------------------------------------

namespace Engine

theorem InBounds.sound (h : e.InBounds length height depth) (hFaultless : e.Faultless) :
    e.Sound length height depth where
  toInBounds := h
  fault := by simp [hFaultless.fault, hFaultless.phase]

theorem Sound.snapshot (h : e.Sound length height depth) (output : Option Word) :
    (e.snapshot output).2.Sound length height depth :=
  ⟨⟨h.size, h.ip, h.returns, h.calls, h.height, h.limit⟩, h.fault⟩

theorem InBounds.sound_fail (h : e.InBounds length height depth) (fault : Fault) :
    (e.fail fault).Sound length height depth :=
  ⟨⟨h.size, h.ip, h.returns, h.calls, h.height, h.limit⟩, by simp [fail, record]⟩

/-- An engine that is not errored has no fault. -/
theorem Sound.fault_eq_none (h : e.Sound length height depth) (hPhase : e.phase ≠ .errored) :
    e.fault = none := by
  rwa [← Option.not_isSome_iff_eq_none, h.fault]

theorem sound_start (program : List Chunk) (stack : List Word) (depth historyLimit : Nat)
    (random : σ) :
    (start program stack depth historyLimit random).Sound program.length stack.length depth where
  size := List.size_toArray
  ip := Nat.zero_le _
  returns := nofun
  calls := Nat.zero_le _
  height := Nat.le_max_left _ _
  limit := rfl
  fault := ⟨nofun, nofun⟩

theorem sound_reinitialize (hLimit : e.maxStackDepth = depth) (program : List Chunk)
    (stack : List Word) :
    (e.reinitialize program stack).Sound program.length stack.length depth where
  size := List.size_toArray
  ip := Nat.zero_le _
  returns := nofun
  calls := Nat.zero_le _
  height := Nat.le_max_left _ _
  limit := hLimit
  fault := ⟨nofun, nofun⟩

variable [RandomSource σ]

theorem InBounds.advance (h : e.InBounds length height depth) (hFaultless : e.Faultless) :
    e.advance.2.Sound length height depth := by
  obtain ⟨hBounds, hAfter⟩ := inBounds_executeNext h hFaultless
  unfold Engine.advance
  split
  · rename_i hRun
    rw [hRun] at hBounds hAfter
    exact (hBounds.sound hAfter).snapshot _
  · rename_i hRun
    rw [hRun] at hBounds
    exact (hBounds.sound_fail _).snapshot _

theorem Sound.step {r : StepResult} (h : e.Sound length height depth)
    (hStep : e.step = .ok (r, e')) : e'.Sound length height depth := by
  obtain ⟨hPhase, hAdvance⟩ := step_eq_ok_iff.mp hStep
  have hFault : e.fault = none := h.fault_eq_none (not_errored_of_canStep hPhase)
  have hBounds : ({ e with phase := .running } : Engine σ).InBounds length height depth :=
    ⟨h.size, h.ip, h.returns, h.calls, h.height, h.limit⟩
  have hSound := hBounds.advance ⟨hFault, nofun⟩
  rwa [hAdvance] at hSound

theorem Sound.resume {v : Word} {r : StepResult} (h : e.Sound length height depth)
    (hResume : e.resume v = .ok (r, e')) : e'.Sound length height depth := by
  have hAwaits := awaiting_of_resume hResume
  have hFault : e.fault = none := h.fault_eq_none (by rw [hAwaits]; decide)
  rcases Nat.lt_or_ge e.stack.length e.maxStackDepth with hRoom | hFull
  · rw [resume_room v hAwaits hRoom, Except.ok.injEq] at hResume
    have hHeight : e.stack.length + 1 ≤ max height depth :=
      (h.limit ▸ hRoom : e.stack.length < depth).trans_le (Nat.le_max_right _ _)
    have hBounds : (e.supplied v).InBounds length height depth :=
      ⟨h.size, h.ip, h.returns, h.calls, hHeight, h.limit⟩
    have hSound := hBounds.advance ⟨hFault, nofun⟩
    rwa [hResume] at hSound
  · rw [resume_full v hAwaits hFull, Except.ok.injEq] at hResume
    have hBounds : ({ e.record (.inputSupplied v) with phase := .running } : Engine σ).InBounds
        length height depth := ⟨h.size, h.ip, h.returns, h.calls, h.height, h.limit⟩
    have hSound := (hBounds.sound_fail (.stackOverflow e.maxStackDepth)).snapshot none
    rwa [hResume] at hSound

/-- **An engine stays within its bounds.** Whatever programs it was loaded with and whatever was
asked of it, the number of its cells is that of the last program, it goes and returns only to
addresses of that program or to its end, neither stack is higher than its limit, apart from an
operand stack that was loaded so, and it has a fault exactly when it is errored. -/
theorem sound_of_reachable {program : List Chunk} {stack : List Word}
    (h : Reachable depth program stack e) : e.Sound program.length stack.length depth := by
  induction h with
  | start program stack historyLimit random => exact sound_start ..
  | call call _ ih =>
    exact call.after_induction (fun h => h.step) (fun h => h.resume)
      (fun output h => h.snapshot output) ih
  | reload program' stack' _ ih => exact sound_reinitialize ih.limit ..

/-- A program that calls in its last cell leaves its own length as the address to return to. -/
theorem sound_of_reachable_last_cell : ∃ e : Engine (List Nat),
    Reachable 1 [512, 923521] [] e ∧ e.callStack = [2] ∧ e.Sound 2 0 1 := by
  have hReachable : Reachable 1 [512, 923521] [] (Call.step.after (Call.step.after
      (Engine.reinitialize (start [] [7] 1 0 [] : Engine (List Nat)) [512, 923521] []))) :=
    .call _ (.call _ (.reload _ _ (.start ..)))
  exact ⟨_, hReachable, by decide +kernel, sound_of_reachable hReachable⟩

end Engine

end FactorMachine
