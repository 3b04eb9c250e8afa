import FactorMachine.Proofs.Engine.Calls

/-!
# FactorMachine — whoever talks to an engine

A `Call` is anything that can be asked of a loaded engine: a step, a word, a run, or only to show
itself. A refused call changes nothing. `Engine.transcript` lists the reply to each call in
a row with the engine after it, and `Engine.Reachable` says which engines calls and fresh programs
can lead to.

A run is steps in a row, so what steps, words and shows keep up is kept up by every call.

## Results

* `exists_runUntilBlocked` — a run is never refused.
* `Call.after_induction`   — what steps, words and shows keep up, every call does.
* `errored_afterCalls`     — an errored engine stays so.
-/

namespace FactorMachine.Engine

variable {σ : Type}

/-- What can be asked of a loaded engine. -/
inductive Call where
  | step
  /-- Supplies a word. -/
  | resume (v : Word)
  | runUntilBlocked (maxSteps : Nat)
  /-- Shows the engine, with a word as what was printed. -/
  | snapshot (output : Option Word)

variable [RandomSource σ]

namespace Call

/-- What a call gives and leaves, unless it is refused. -/
def answer : Call → Engine σ → Except Refusal (StepResult × Engine σ)
  | step, e => e.step
  | resume v, e => e.resume v
  | runUntilBlocked maxSteps, e => e.runUntilBlocked maxSteps
  | snapshot output, e => .ok (e.snapshot output)

def reply (call : Call) (e : Engine σ) : Except Refusal StepResult :=
  (call.answer e).map Prod.fst

/-- The engine after a call. -/
def after (call : Call) (e : Engine σ) : Engine σ :=
  match call.answer e with
  | .ok (_, e') => e'
  | .error _ => e

theorem after_of_answer {call : Call} {e e' : Engine σ} {r : StepResult}
    (h : call.answer e = .ok (r, e')) : call.after e = e' := by
  rw [after, h]

theorem after_of_refused {call : Call} {e : Engine σ} {refusal : Refusal}
    (h : call.answer e = .error refusal) : call.after e = e := by
  rw [after, h]

end Call

/-- The reply to each call in a row, with the engine after it. -/
def transcript : List Call → Engine σ → List (Except Refusal StepResult × Engine σ)
  | [], _ => []
  | call :: calls, e => (call.reply e, call.after e) :: transcript calls (call.after e)

/-- The engine after calls in a row. -/
def afterCalls (calls : List Call) (e : Engine σ) : Engine σ :=
  calls.foldl (fun e call => call.after e) e

/-- The engines that calls and fresh programs can lead to, each with the program and the operand
stack that it was loaded with last. -/
inductive Reachable (depth : Nat) : List Chunk → List Word → Engine σ → Prop
  | start (program : List Chunk) (stack : List Word) (historyLimit : Nat) (random : σ) :
      Reachable depth program stack (start program stack depth historyLimit random)
  | call {program : List Chunk} {stack : List Word} {e : Engine σ} (call : Call) :
      Reachable depth program stack e → Reachable depth program stack (call.after e)
  | reload {program : List Chunk} {stack : List Word} {e : Engine σ}
      (program' : List Chunk) (stack' : List Word) : Reachable depth program stack e →
      Reachable depth program' stack' (e.reinitialize program' stack')

omit [RandomSource σ] in
theorem not_errored_of_canStep {e : Engine σ} (h : e.phase.canStep = true) :
    e.phase ≠ .errored := by
  intro hErrored
  rw [hErrored] at h
  cases h

/-- Whether and how a step is refused depends on nothing but the phase. -/
theorem step_refused {e : Engine σ} (h : ¬ e.phase.canStep = true) :
    ∃ refusal, ∀ {a : Engine σ}, a.phase = e.phase → a.step = .error refusal := by
  unfold step
  cases hPhase : e.phase with
  | ready | running =>
    rw [hPhase] at h
    exact absurd rfl h
  | awaitingInput =>
    refine ⟨.awaitingInput, fun hSame => ?_⟩
    rw [hSame]
  | halted =>
    refine ⟨.stopped .halted, fun hSame => ?_⟩
    rw [hSame]
  | errored =>
    refine ⟨.stopped .errored, fun hSame => ?_⟩
    rw [hSame]

-- ---------------------------------------------------------------------------
-- Runs
-- ---------------------------------------------------------------------------

theorem stepsFrom_succ (maxSteps : Nat) (last : Option StepResult) (e : Engine σ) :
    e.stepsFrom (maxSteps + 1) last =
      if e.phase.canStep = true then
        e.step >>= fun (r, e') =>
          if r.blocked then .ok (some r, e') else e'.stepsFrom maxSteps (some r)
      else .ok (last, e) := by
  rw [stepsFrom]
  cases e.step <;> rfl

/-- A run whose first step is known. -/
theorem stepsFrom_of_step {e e' : Engine σ} {r : StepResult} (hStep : e.step = .ok (r, e'))
    (maxSteps : Nat) (last : Option StepResult) :
    e.stepsFrom (maxSteps + 1) last =
      if r.blocked then .ok (some r, e') else e'.stepsFrom maxSteps (some r) := by
  rw [stepsFrom_succ, if_pos (eq_next_of_step hStep).1, bind_ok hStep]

theorem runUntilBlocked_eq (e : Engine σ) (maxSteps : Nat) : e.runUntilBlocked maxSteps =
    e.stepsFrom maxSteps none >>= fun (shown, e') =>
      match shown with
      | some r => .ok (r, e')
      | none => .ok (e'.snapshot none) := by
  rw [runUntilBlocked]
  match e.stepsFrom maxSteps none with
  | .ok (some _, _) | .ok (none, _) | .error _ => rfl

theorem exists_stepsFrom (maxSteps : Nat) : ∀ (e : Engine σ) (last : Option StepResult),
    ∃ shown e', e.stepsFrom maxSteps last = .ok (shown, e') := by
  -- every step is made in a phase that allows it
  induction maxSteps with
  | zero => exact fun e last => ⟨last, e, rfl⟩
  | succ maxSteps ih =>
    intro e last
    by_cases hPhase : e.phase.canStep = true
    · obtain ⟨r, hStep, -⟩ := step_next hPhase
      rw [stepsFrom_of_step hStep]
      split
      · exact ⟨_, _, rfl⟩
      · exact ih _ _
    · rw [stepsFrom_succ, if_neg hPhase]
      exact ⟨_, _, rfl⟩

/-- A run is never refused. -/
theorem exists_runUntilBlocked (e : Engine σ) (maxSteps : Nat) :
    ∃ r e', e.runUntilBlocked maxSteps = .ok (r, e') := by
  obtain ⟨shown, e', hSteps⟩ := exists_stepsFrom maxSteps e none
  rw [runUntilBlocked_eq, bind_ok hSteps]
  cases shown <;> exact ⟨_, _, rfl⟩

-- ---------------------------------------------------------------------------
-- What every call keeps up
-- ---------------------------------------------------------------------------

section Induction

variable {P : Engine σ → Prop}
  (hStep : ∀ {a b : Engine σ} {r : StepResult}, P a → a.step = .ok (r, b) → P b)
  (hResume : ∀ {a b : Engine σ} {v : Word} {r : StepResult},
    P a → a.resume v = .ok (r, b) → P b)
include hStep hResume

theorem Reaches.induction {e e' : Engine σ} (h : e.Reaches e') (hHere : P e) : P e' := by
  induction h with
  | refl => exact hHere
  | step _ hOk ih => exact hStep ih hOk
  | resume _ hOk ih => exact hResume ih hOk

/-- What steps, words and shows keep up, every call does. -/
theorem Call.after_induction
    (hShow : ∀ {a : Engine σ} (output : Option Word), P a → P (a.snapshot output).2)
    (call : Call) {e : Engine σ} (hHere : P e) : P (call.after e) := by
  cases hAnswer : call.answer e with
  | error refusal =>
    rw [after_of_refused hAnswer]
    exact hHere
  | ok shown =>
    obtain ⟨r, e'⟩ := shown
    rw [after_of_answer hAnswer]
    cases call with
    | step => exact hStep hHere hAnswer
    | resume v => exact hResume hHere hAnswer
    | snapshot output =>
      cases hAnswer
      exact hShow output hHere
    | runUntilBlocked maxSteps =>
      -- the steps of the run come first, and without a step the engine is shown
      have hSteps : ∀ {shown e'}, e.stepsFrom maxSteps none = .ok (shown, e') → P e' :=
        fun h => (Reaches.refl.stepsFrom h).induction hStep hResume hHere
      have hRun : e.runUntilBlocked maxSteps = .ok (r, e') := hAnswer
      unfold Engine.runUntilBlocked at hRun
      split at hRun
      · rename_i hFrom
        cases hRun
        exact hSteps hFrom
      · rename_i hFrom
        have hShown := hShow none (hSteps hFrom)
        rw [Except.ok.injEq] at hRun
        rwa [hRun] at hShown
      · cases hRun

end Induction

/-- An errored engine stays so. -/
theorem Reaches.errored {e e' : Engine σ} (h : e.Reaches e') (hErrored : e.phase = .errored) :
    e'.phase = .errored := by
  refine h.induction (P := fun e => e.phase = .errored) (fun hHere hStep => ?_)
    (fun hHere hResume => ?_) hErrored
  · exact absurd hHere (not_errored_of_canStep (eq_next_of_step hStep).1)
  · have hAwaits := awaiting_of_resume hResume
    rw [hHere] at hAwaits
    cases hAwaits

theorem Call.errored_after (call : Call) {e : Engine σ} (hErrored : e.phase = .errored) :
    (call.after e).phase = .errored := by
  refine call.after_induction (P := fun e => e.phase = .errored) (fun hHere hStep => ?_)
    (fun hHere hResume => ?_) (fun _ hHere => hHere) hErrored
  · exact (Reaches.refl.step hStep).errored hHere
  · exact (Reaches.refl.resume hResume).errored hHere

theorem errored_afterCalls (calls : List Call) : ∀ {e : Engine σ}, e.phase = .errored →
    (afterCalls calls e).phase = .errored := by
  induction calls with
  | nil => exact id
  | cons call calls ih => exact fun hErrored => ih (call.errored_after hErrored)

end FactorMachine.Engine
