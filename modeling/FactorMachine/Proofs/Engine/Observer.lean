import FactorMachine.Proofs.Engine.Budget

/-!
# FactorMachine — whoever keeps a copy of the program

A program may rewrite itself, and whoever wants to know how it stands need not ask for it: a result
carries the program if it was written. So an observer starts from the program that was loaded and
replaces the copy by what a result carries.

After a step or a word the copy is exact: what the next instruction writes is known beforehand
(`Engine.write?`), and it is just the writes that are shown. But a run shows only the result of its
last step. Each step before it has shown its writes as well, to nobody, so they stay unknown unless
the last step happens to write. `Engine.Overlooks` says when this comes about, and the main result
is that there is no other way to miss a rewrite.

## Results

* `memory_executeNext`     — an instruction leaves the memory with its write and otherwise as it was.
* `Settled.tells_advance`  — an instruction that is carried out tells what became of the program.
* `Orderly.tells_run_iff`  — a run tells it unless it overlooks a rewrite.
* `copy_exact_iff`         — a copy is exact after every call just if no run overlooks a rewrite.
-/

namespace FactorMachine

open Operation

variable {σ : Type}

-- ---------------------------------------------------------------------------
-- What an instruction writes
-- ---------------------------------------------------------------------------

/-- The memory after a write, if there is one. -/
def Memory.written (m : Memory) : Option (Nat × Chunk) → Memory
  | some (a, chunk) => ⟨m.cells.setIfInBounds a chunk, true⟩
  | none => m

theorem Memory.write?_getD {m : Memory} {a : Nat} {chunk : Chunk} (ha : a < m.size) :
    (m.write? a chunk).getD m = m.written (some (a, chunk)) := by
  simp [Memory.write?, Memory.written, ha]

/-- The address and the chunk that two operands stand for, in a program of `size` cells. -/
def operandsToWrite? (size : Nat) : List Word → Option (Nat × Chunk)
  | target :: value :: _ => do
    let a ← target.toNatBelow? size
    let chunk ← value.toNatBelow? Word.bound
    return (a, chunk)
  | _ => none

/-- The address and the chunk that the next instruction writes, if it writes. -/
def Engine.write? (e : Engine σ) : Option (Nat × Chunk) :=
  match e.fetch with
  | .instruction .pokeChunk _ => operandsToWrite? e.memory.size e.stack
  | _ => none

variable [RandomSource σ]

/-- Only one opcode writes. -/
theorem Operation.Instruction.memory {op : Opcode} {x : Operation σ (Option Word)}
    (h : Instruction op x) (hOther : op ≠ .pokeChunk) :
    ∀ e : Engine σ, (stateAfter (x.run e)).memory = e.memory := by
  induction h with
  | effect effect hSuits =>
    intro e
    rw [Effect.run_perform]
    cases effect with
    | poke target value => exact absurd hSuits hOther
    | proceed | print v | await | halt => rfl
    | jump target | call target | ret =>
      simp only [Effect.outcome]
      repeat' split
      all_goals rfl
  | @work α x f hWork _ ih =>
    intro e
    have hSame : (stateAfter (x.run e)).memory = e.memory := by rw [(hWork.reworks e).same]
    cases hRun : x.run e with
    | ok a e' =>
      rw [hRun] at hSame
      rw [run_bind_ok hRun, ih a e']
      exact hSame
    | error fault e' =>
      rw [hRun] at hSame
      rw [run_bind_error hRun]
      exact hSame

theorem memory_execute_pokeChunk (address : Nat) (operand : Option Nat) (e : Engine σ) :
    (stateAfter ((execute address .pokeChunk operand).run e)).memory =
      e.memory.written (operandsToWrite? e.memory.size e.stack) := by
  have hExecute : (execute address .pokeChunk operand : Operation σ (Option Word)) =
      (pop address .pokeChunk >>= fun target => pop address .pokeChunk >>= fun value =>
        (Effect.poke target value).perform) := rfl
  rw [hExecute]
  match hStack : e.stack with
  | [] =>
    have hPop := pop_run address .pokeChunk e
    rw [hStack] at hPop
    rw [run_bind_error hPop]
    rfl
  | [target] =>
    rw [run_bind_ok (run_pop address .pokeChunk hStack),
      run_bind_error (pop_run address .pokeChunk { e with stack := [] })]
    rfl
  | target :: value :: rest =>
    rw [run_bind_ok (run_pop address .pokeChunk hStack),
      run_bind_ok (run_pop address .pokeChunk rfl), Effect.run_perform]
    simp only [Effect.outcome, operandsToWrite?]
    cases hTarget : target.toNatBelow? e.memory.size with
    | none => rfl
    | some a =>
      have ha : a < e.memory.size := Word.lt_of_toNatBelow? hTarget
      cases hValue : value.toNatBelow? Word.bound with
      | none => rfl
      | some chunk => exact Memory.write?_getD ha

/-- An instruction leaves the memory with its write and otherwise as it was. -/
theorem memory_executeNext (e : Engine σ) :
    (stateAfter (executeNext.run e)).memory = e.memory.written e.write? := by
  rw [executeNext_eq]
  unfold Engine.write?
  cases hFetch : e.fetch with
  | missing | degenerate | faulty fault => rfl
  | instruction op operand =>
    -- the engine that carries out the instruction, past its cell
    let past : Engine σ := { e.record (.executed e.ip op) with ip := e.ip + 1 }
    by_cases hPoke : op = .pokeChunk
    · subst hPoke
      exact memory_execute_pokeChunk e.ip operand past
    · have hSame := (instruction_execute e.ip op operand).memory hPoke past
      cases op with
      | pokeChunk => exact absurd rfl hPoke
      | _ => exact hSame

-- ---------------------------------------------------------------------------
-- What is shown of it
-- ---------------------------------------------------------------------------

namespace Engine

variable {e e' : Engine σ} {r : StepResult}

/-- A result that carries the program exactly if there was a write. -/
structure Carries (r : StepResult) (write : Option (Nat × Chunk)) (e e' : Engine σ) : Prop where
  shown : r.program = write.map fun _ => e'.program
  cells : e'.program = (e.memory.written write).cells

omit [RandomSource σ] in
theorem Carries.snapshot {write : Option (Nat × Chunk)} (hSettled : e.Settled)
    (hMemory : e'.memory = e.memory.written write) (output : Option Word) :
    Carries (e'.snapshot output).1 write e (e'.snapshot output).2 := by
  have hCells : e'.program = (e.memory.written write).cells := congrArg Memory.cells hMemory
  refine ⟨?_, hCells⟩
  have hDirty : e'.memory.dirty = write.isSome := by
    rw [hMemory]
    cases write with
    | none => exact hSettled
    | some _ => rfl
  have hShown : (e'.snapshot output).1.program =
      if e'.memory.dirty then some (e'.snapshot output).2.program else none := rfl
  rw [hShown, hDirty]
  cases write <;> rfl

/-- An instruction that is carried out is shown with its write. -/
theorem Settled.advance_carries (h : e.Settled) :
    Carries e.advance.1 e.write? e e.advance.2 := by
  have hMemory := memory_executeNext e
  unfold advance
  cases hRun : executeNext.run e with
  | ok output e' =>
    rw [hRun] at hMemory
    exact .snapshot h hMemory output
  | error fault e' =>
    rw [hRun] at hMemory
    have hFailed : (e'.fail fault).memory = e.memory.written e.write? := hMemory
    exact .snapshot h hFailed none

theorem Settled.step_carries (h : e.Settled) (hStep : e.step = .ok (r, e')) :
    Carries r e.write? e e' := by
  obtain ⟨-, hAdvance⟩ := step_eq_ok_iff.mp hStep
  have hCarries := Settled.advance_carries (e := { e with phase := .running }) h
  rw [hAdvance] at hCarries
  exact ⟨hCarries.shown, hCarries.cells⟩

theorem Settled.exists_resume_carries {v : Word} (h : e.Settled)
    (hResume : e.resume v = .ok (r, e')) : ∃ write, Carries r write e e' := by
  have hAwaits := awaiting_of_resume hResume
  rcases Nat.lt_or_ge e.stack.length e.maxStackDepth with hRoom | hFull
  · rw [resume_room v hAwaits hRoom, Except.ok.injEq] at hResume
    have hCarries := Settled.advance_carries (e := e.supplied v) h
    rw [hResume] at hCarries
    exact ⟨_, hCarries.shown, hCarries.cells⟩
  · rw [resume_full v hAwaits hFull, Except.ok.injEq] at hResume
    let failed : Engine σ := ({ e.record (.inputSupplied v) with phase := .running } : Engine σ).fail
      (.stackOverflow e.maxStackDepth)
    have hCarries : Carries (failed.snapshot none).1 none e (failed.snapshot none).2 :=
      .snapshot h rfl none
    rw [hResume] at hCarries
    exact ⟨none, hCarries⟩

/-- With the program of the first engine known, a result makes that of the second one known. -/
def Reveals (r : StepResult) (e e' : Engine σ) : Prop := r.program.getD e.program = e'.program

omit [RandomSource σ] in
theorem Carries.reveals {write : Option (Nat × Chunk)} (h : Carries r write e e') :
    Reveals r e e' := by
  unfold Reveals
  rw [h.shown]
  cases write with
  | none => exact h.cells.symm
  | some _ => rfl

-- ---------------------------------------------------------------------------
-- Runs
-- ---------------------------------------------------------------------------

/-- A run overlooks a rewrite: its last step writes nothing, but the program is not the one that
the run began with. -/
def Overlooks (n : Nat) (e : Engine σ) : Prop :=
  ∃ k, LastStep n k e ∧ (proceed^[k] e).write? = none ∧ (proceed^[k] e).program ≠ e.program

theorem LastStep.not_lt {n k k' : Nat} (h : LastStep n k e) (h' : LastStep n k' e) : ¬ k < k' := by
  intro hLt
  rcases h.last with rfl | hStops
  · exact Nat.not_lt.mpr hLt h'.lt
  · -- whoever is blocked after `k + 1` steps is so after `k'`
    have hSame : proceed^[k'] e = proceed^[k + 1] e := by
      rw [← Nat.sub_add_cancel hLt, Function.iterate_add_apply,
        proceed_iterate_of_blocked hStops]
    exact hStops (hSame ▸ h'.free)

theorem LastStep.unique {n k k' : Nat} (h : LastStep n k e) (h' : LastStep n k' e) : k = k' :=
  Nat.le_antisymm (Nat.le_of_not_lt (h'.not_lt h)) (Nat.le_of_not_lt (h.not_lt h'))

theorem Orderly.proceeded (h : e.Orderly) (n : Nat) : (proceed^[n] e).Orderly :=
  h.after_run n ▸ h.after (.runUntilBlocked n)

/-- A run reveals the program unless it overlooks a rewrite. -/
theorem Orderly.reveals_run_iff (h : e.Orderly) {n : Nat}
    (hRun : e.runUntilBlocked n = .ok (r, e')) : Reveals r e e' ↔ ¬ e.Overlooks n := by
  rcases h.answer_run n with ⟨k, r', hLast, hStep, hAnswer⟩ | ⟨hNone, hStays, hAnswer⟩
  · obtain ⟨rfl, rfl⟩ : r = r' ∧ e' = proceed^[n] e := by
      rw [hRun] at hAnswer
      simpa using hAnswer
    have hCarries := (h.proceeded k).settled.step_carries hStep
    have hOverlooks : e.Overlooks n ↔
        (proceed^[k] e).write? = none ∧ (proceed^[k] e).program ≠ e.program := by
      refine ⟨?_, fun hBoth => ⟨k, hLast, hBoth⟩⟩
      rintro ⟨k', hLast', hBoth⟩
      rwa [hLast.unique hLast']
    unfold Reveals
    rw [hOverlooks, hCarries.shown]
    cases hWrite : (proceed^[k] e).write? with
    | some write => simp
    | none =>
      -- nothing is shown, and the program is as it was before the last step
      have hCells : (proceed^[n] e).program = (proceed^[k] e).program := by
        rw [hCarries.cells, hWrite]
        rfl
      simp [hCells, eq_comm]
  · obtain ⟨rfl, rfl⟩ : r = (e.snapshot none).1 ∧ e' = proceed^[n] e := by
      rw [hRun] at hAnswer
      simpa using hAnswer
    have hNot : ¬ e.Overlooks n := by
      rintro ⟨k, hLast, -, hOther⟩
      rcases hNone with rfl | hBlocked
      · exact Nat.not_lt_zero k hLast.lt
      · rw [proceed_iterate_of_blocked hBlocked] at hOther
        exact hOther rfl
    have hCarries : Carries (e.snapshot none).1 none e (e.snapshot none).2 :=
      .snapshot h.settled rfl none
    rw [h.settled.snapshot none] at hCarries
    rw [hStays]
    exact iff_of_true hCarries.reveals hNot

-- ---------------------------------------------------------------------------
-- Calls in a row
-- ---------------------------------------------------------------------------

/-- The copy of the program after a reply. -/
def observe (copy : Array Chunk) : Except Refusal StepResult → Array Chunk
  | .ok r => r.program.getD copy
  | .error _ => copy

/-- The copy of whoever knows the program at first and sees the reply to each call. -/
def copyAfter (calls : List Call) (e : Engine σ) : Array Chunk :=
  (transcript calls e).foldl (fun copy (reply, _) => observe copy reply) e.program

theorem transcript_concat (calls : List Call) (call : Call) : ∀ e : Engine σ,
    transcript (calls ++ [call]) e =
      transcript calls e ++ [(call.reply (afterCalls calls e), call.after (afterCalls calls e))] := by
  induction calls with
  | nil => exact fun e => rfl
  | cons first calls ih => exact fun e => congrArg (_ :: ·) (ih (first.after e))

theorem copyAfter_concat (calls : List Call) (call : Call) (e : Engine σ) :
    copyAfter (calls ++ [call]) e =
      observe (copyAfter calls e) (call.reply (afterCalls calls e)) := by
  simp [copyAfter, transcript_concat]

theorem afterCalls_concat (calls : List Call) (call : Call) (e : Engine σ) :
    afterCalls (calls ++ [call]) e = call.after (afterCalls calls e) := by
  simp [afterCalls]

theorem Orderly.afterCalls (h : e.Orderly) (calls : List Call) : (afterCalls calls e).Orderly := by
  induction calls generalizing e with
  | nil => exact h
  | cons call calls ih => exact ih (h.after call)

/-- An exact copy stays so, unless the call is a run that overlooks a rewrite. -/
theorem Orderly.observe_iff (h : e.Orderly) (call : Call) :
    observe e.program (call.reply e) = (call.after e).program ↔
      ∀ n, call = .runUntilBlocked n → ¬ e.Overlooks n := by
  unfold Call.reply
  cases hAnswer : call.answer e with
  | error refusal =>
    rw [Call.after_of_refused hAnswer]
    refine iff_of_true rfl ?_
    rintro n rfl
    obtain ⟨r, e', hRun⟩ := exists_runUntilBlocked e n
    have hRefused : e.runUntilBlocked n = .error refusal := hAnswer
    rw [hRun] at hRefused
    cases hRefused
  | ok shown =>
    obtain ⟨r, e'⟩ := shown
    rw [Call.after_of_answer hAnswer]
    cases call with
    | step => exact iff_of_true (h.settled.step_carries hAnswer).reveals nofun
    | resume v =>
      obtain ⟨write, hCarries⟩ := h.settled.exists_resume_carries hAnswer
      exact iff_of_true hCarries.reveals nofun
    | snapshot output =>
      cases hAnswer
      have hCarries : Carries (e.snapshot output).1 none e (e.snapshot output).2 :=
        .snapshot h.settled rfl output
      exact iff_of_true hCarries.reveals nofun
    | runUntilBlocked n =>
      have hRun : e.runUntilBlocked n = .ok (r, e') := hAnswer
      exact (h.reveals_run_iff hRun).trans (by simp)

/-- **A copy of the program misses nothing but what a run overlooks.** Whoever knows the program of
an engine in use, and replaces the copy by what a result carries, holds the program exactly after
every call if no run overlooks a rewrite, and only then. Steps, words and shows overlook none. -/
theorem copy_exact_iff {depth : Nat} {program : List Chunk} {stack : List Word}
    (h : Reachable depth program stack e) (calls : List Call) :
    (∀ made left, calls = made ++ left → copyAfter made e = (afterCalls made e).program) ↔
      ∀ made n left, calls = made ++ .runUntilBlocked n :: left →
        ¬ (afterCalls made e).Overlooks n := by
  have hOrderly : ∀ made, (afterCalls made e).Orderly := h.orderly.afterCalls
  refine ⟨fun hExact made n left hCalls => ?_, fun hNever made => ?_⟩
  · -- exact before the run and after it
    have hBefore := hExact made _ hCalls
    have hAfter := hExact (made ++ [.runUntilBlocked n]) left (by simp [hCalls])
    rw [copyAfter_concat, afterCalls_concat, hBefore] at hAfter
    exact ((hOrderly made).observe_iff _).mp hAfter n rfl
  · -- by induction on the calls made so far
    induction made using List.reverseRecOn with
    | nil => exact fun _ _ => rfl
    | append_singleton made call ih =>
      intro left hCalls
      have hCalls : calls = made ++ call :: left := by simpa using hCalls
      rw [copyAfter_concat, afterCalls_concat, ih (call :: left) hCalls, Orderly.observe_iff]
      · rintro n rfl
        exact hNever made n left hCalls
      · exact hOrderly made

/-- A program that writes and then halts, in a run of two steps. -/
theorem copy_exact_run : ∃ e : Engine (List Nat), Reachable 4 [28561, 2401] [0, 1] e ∧
    copyAfter [.runUntilBlocked 2] e = #[28561, 2401] ∧
    (afterCalls [.runUntilBlocked 2] e).program = #[1, 2401] ∧
    (afterCalls [.runUntilBlocked 2] e).phase = .halted ∧
    ¬ ∀ made n left, [.runUntilBlocked 2] = made ++ .runUntilBlocked n :: left →
      ¬ (afterCalls made e).Overlooks n := by
  have hReachable : Reachable 4 [28561, 2401] [0, 1]
      (start [28561, 2401] [0, 1] 4 0 [] : Engine (List Nat)) := .start ..
  refine ⟨_, hReachable, by decide +kernel, by decide +kernel, by decide +kernel, fun hNever => ?_⟩
  have hExact := (copy_exact_iff hReachable _).mpr hNever _ [] (List.append_nil _).symm
  revert hExact
  decide +kernel

end Engine

end FactorMachine
