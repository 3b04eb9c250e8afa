import FactorMachine.Proofs.Seeker.Renewal
import FactorMachine.Proofs.Trainer.Life

/-!
# FactorMachine — what a session keeps up

Whatever a cycle comes to, it changes neither the configuration nor the number of restarts, and it
leaves the builder sound; `Upkept` says so of two sessions. A rebuilding does the same, and only a
restart is counted. A cycle fails by a stop of the engine, which a restart may cure, or because the
engine refuses a call.

What cycles and rebuildings keep, calls keep. So in the life of a session that started under an
accepted configuration the builder is sound all the time, and since there was a first program, there
is another one whenever it is asked for.

## Results

* `upkept_cycle`                       — what a cycle leaves alone.
* `error_of_cycle`, `failure_of_cycle` — where a cycle may fail, and how.
* `restart_ok`, `restart_error`        — what a restart may come to.
* `stateAfter_call`                    — what calls keep.
* `judged_of_cycle`, `sent_of_cycle`   — what stands behind a report.
* `supplied_afterCalls`, `Supplied.exists_build` — in the life of a session there is always a program.
-/

namespace FactorMachine

namespace Session

variable {σ : Type}

/-- What two sessions have in common with no restart in between. -/
structure Upkept (s s' : Session σ) : Prop where
  config : s'.config = s.config
  restarts : s'.restarts = s.restarts
  builder : ∀ {seeker protocol}, s.builder.Sound seeker protocol →
    s'.builder.Sound seeker protocol

theorem Upkept.refl (s : Session σ) : s.Upkept s := ⟨rfl, rfl, id⟩

theorem Upkept.trans {s s' s'' : Session σ} (h : s.Upkept s') (h' : s'.Upkept s'') :
    s.Upkept s'' :=
  ⟨h'.config.trans h.config, h'.restarts.trans h.restarts, fun hSound => h'.builder
    (h.builder hSound)⟩

variable [RandomSource σ] {s s' : Session σ} {e : SessionError}

-- ---------------------------------------------------------------------------
-- Cycles
-- ---------------------------------------------------------------------------

theorem upkept_runToInput (s : Session σ) : s.Upkept (stateAfter (runToInput.run s)) := by
  unfold runToInput
  rw [run_bind_ok (EStateM.run_get s)]
  dsimp only
  split
  · exact .refl s
  · rw [run_bind_ok (EStateM.run_set _ _)]
    split
    · exact ⟨rfl, rfl, id⟩
    · exact ⟨rfl, rfl, id⟩

omit [RandomSource σ] in
theorem upkept_lookForStuckSignal (s : Session σ) :
    s.Upkept (stateAfter (lookForStuckSignal.run s)) := ⟨rfl, rfl, id⟩

omit [RandomSource σ] in
/-- An outcome that is credited to a slot leaves the builder sound. -/
theorem upkept_recordSlotOutcome (s : Session σ) (success : Bool) :
    s.Upkept (s.recordSlotOutcome success) := by
  rcases recordSlotOutcome_cases s success with hSame | ⟨address, instruction, hCredited⟩
  · rw [hSame]
    exact .refl s
  · rw [hCredited]
    exact ⟨rfl, rfl, fun hSound => hSound.recordOutcome address instruction success⟩

omit [RandomSource σ] in
/-- To which slot an outcome is credited depends on engine, program and builder alone. -/
theorem builder_recordSlotOutcome_congr {t : Session σ} (hEngine : t.engine = s.engine)
    (hSeeker : t.seeker = s.seeker) (hBuilder : t.builder = s.builder) (success : Bool) :
    (t.recordSlotOutcome success).builder = (s.recordSlotOutcome success).builder := by
  unfold recordSlotOutcome
  rw [hEngine, hSeeker]
  split
  · exact hBuilder
  · split
    · exact hBuilder
    · split
      · exact hBuilder
      · rw [hBuilder]

/-- The answer where an attempt is expected, and what it leaves alone. -/
theorem answer_judge (hPhase : s.controller.phase = .awaitingAttemptResult) :
    ∃ input success answered, answer.run s = .ok (input, some success) answered ∧
      answered.builder = (s.recordSlotOutcome success).builder ∧ answered.seeker = s.seeker ∧
      answered.engine = s.engine ∧ answered.config = s.config ∧
      answered.restarts = s.restarts := by
  let input := (s.controller.respond s.engine.lastOutput).1
  let success := decide (input = s.config.protocol.successFeedback)
  let s₁ : Session σ := { s with controller := (s.controller.respond s.engine.lastOutput).2 }
  let recorded := s₁.recordSlotOutcome success
  have hRun : answer.run s = .ok (input, some success)
      { recorded with failureStreak := if success then 0 else recorded.failureStreak + 1 } := by
    unfold answer
    rw [run_bind_ok (EStateM.run_get s)]
    dsimp only
    rw [if_pos hPhase]
    rfl
  have hBuilder : recorded.builder = (s.recordSlotOutcome success).builder :=
    builder_recordSlotOutcome_congr (s := s) (t := s₁) rfl rfl rfl success
  obtain ⟨bank, hRecord⟩ := recordSlotOutcome_eq s₁ success
  have hSame : recorded = { s₁ with builder := { s₁.builder with bank } } := hRecord
  refine ⟨input, success, _, hRun, hBuilder, ?_, ?_, ?_, ?_⟩ <;> rw [hSame]

theorem upkept_answer (s : Session σ) : s.Upkept (stateAfter (answer.run s)) := by
  cases hPhase : s.controller.phase with
  | sendTarget =>
    rw [run_answer_send hPhase]
    exact ⟨rfl, rfl, id⟩
  | awaitingAttemptResult =>
    obtain ⟨input, success, answered, hRun, hBuilder, -, -, hConfig, hRestarts⟩ :=
      answer_judge hPhase
    rw [hRun]
    refine ⟨hConfig, hRestarts, fun hSound => ?_⟩
    show answered.builder.Sound _ _
    rw [hBuilder]
    exact (upkept_recordSlotOutcome s success).builder hSound

theorem upkept_resume (input : Word) (s : Session σ) :
    s.Upkept (stateAfter ((resume input).run s)) := by
  unfold resume
  rw [run_bind_ok (EStateM.run_get s)]
  split
  · exact .refl s
  · rw [run_bind_ok (EStateM.run_set _ _)]
    split
    · exact ⟨rfl, rfl, id⟩
    · exact ⟨rfl, rfl, id⟩

/-- A cycle, also one that fails, leaves configuration and restarts alone. -/
theorem upkept_cycle (s : Session σ) : s.Upkept (stateAfter (cycle.run s)) :=
  stateAfter_bind (upkept_runToInput s) fun _ _ h₁ =>
    stateAfter_bind (h₁.trans (upkept_lookForStuckSignal _)) fun _ _ h₂ =>
      stateAfter_bind h₂ fun _ _ h₃ =>
        stateAfter_bind (h₃.trans (upkept_answer _)) fun _ _ h₄ =>
          stateAfter_bind (h₄.trans (upkept_resume _ _)) fun _ _ h₅ => h₅

theorem upkept_of_ok {report : CycleReport} (h : cycle.run s = .ok report s') : s.Upkept s' := by
  have hKept := upkept_cycle s
  rwa [h] at hKept

theorem upkept_of_error (h : cycle.run s = .error e s') : s.Upkept s' := by
  have hKept := upkept_cycle s
  rwa [h] at hKept

theorem isRecoverable_of_stopOf? {result : StepResult} {budget : Nat}
    (h : stopOf? result budget = some e) : e.isRecoverable = true := by
  unfold stopOf? at h
  split at h
  · cases h
    rfl
  · split at h
    · cases h
      rfl
    · split at h
      · cases h
      · cases h
        rfl

theorem failure_of_runToInput (h : runToInput.run s = .error e s') :
    e.isRecoverable = true ∨ ∃ refusal, e = .engine refusal := by
  unfold runToInput at h
  rw [run_bind_ok (EStateM.run_get s)] at h
  dsimp only at h
  split at h
  · cases h
    exact .inr ⟨_, rfl⟩
  · rw [run_bind_ok (EStateM.run_set _ _)] at h
    split at h
    · rename_i hStop
      cases h
      exact .inl (isRecoverable_of_stopOf? hStop)
    · cases h

/-- Resuming fails because the engine refuses it or meets with a fault. -/
theorem error_of_resume {input : Word} (h : (resume input).run s = .error e s') :
    (∃ refusal, e = .engine refusal) ∨ ∃ fault, e = .fault fault := by
  unfold resume at h
  rw [run_bind_ok (EStateM.run_get s)] at h
  split at h
  · cases h
    exact .inl ⟨_, rfl⟩
  · rw [run_bind_ok (EStateM.run_set _ _)] at h
    split at h
    · cases h
      exact .inr ⟨_, rfl⟩
    · cases h

theorem answer_ne_error : answer.run s ≠ .error e s' := by
  cases hPhase : s.controller.phase with
  | sendTarget =>
    rw [run_answer_send hPhase]
    exact nofun
  | awaitingAttemptResult =>
    obtain ⟨input, success, answered, hRun, -⟩ := answer_judge hPhase
    rw [hRun]
    exact nofun

/-- A cycle fails on its way to the wait, or when the engine is resumed. -/
theorem error_of_cycle (h : cycle.run s = .error e s') :
    runToInput.run s = .error e s' ∨ (∃ refusal, e = .engine refusal) ∨
      ∃ fault, e = .fault fault := by
  unfold cycle at h
  rcases run_bind_eq_error h with hRun | ⟨_, s₁, -, h⟩
  · exact .inl hRun
  rcases run_bind_eq_error h with hLook | ⟨_, s₂, -, h⟩
  · cases hLook
  rcases run_bind_eq_error h with hGet | ⟨_, s₃, -, h⟩
  · cases hGet
  rcases run_bind_eq_error h with hAnswer | ⟨_, s₄, -, h⟩
  · exact absurd hAnswer answer_ne_error
  rcases run_bind_eq_error h with hResume | ⟨_, s₅, -, h⟩
  · exact .inr (error_of_resume hResume)
  · cases h

/-- A cycle fails by a stop of the engine, or the engine refuses a call. -/
theorem failure_of_cycle (h : cycle.run s = .error e s') :
    e.isRecoverable = true ∨ ∃ refusal, e = .engine refusal := by
  rcases error_of_cycle h with hRun | hRefused | ⟨fault, rfl⟩
  · exact failure_of_runToInput hRun
  · exact .inr hRefused
  · exact .inl rfl

-- ---------------------------------------------------------------------------
-- Cycles that get to their wait
-- ---------------------------------------------------------------------------

variable {s₁ : Session σ} {report : CycleReport}

/-- A cycle runs out of steps only on its way to the wait. -/
theorem runToInput_of_exhausted {budget : Nat}
    (h : cycle.run s = .error (.stepBudgetExhausted budget) s') :
    runToInput.run s = .error (.stepBudgetExhausted budget) s' := by
  rcases error_of_cycle h with hRun | ⟨refusal, hRefused⟩ | ⟨fault, hFault⟩
  · exact hRun
  · cases hRefused
  · cases hFault

theorem resume_ok {input : Word} (h : (resume input).run s = .ok () s') :
    (∃ result, s.engine.resume input = .ok (result, s'.engine)) ∧
      s' = { s with engine := s'.engine } := by
  unfold resume at h
  rw [run_bind_ok (EStateM.run_get s)] at h
  split at h
  · cases h
  · rename_i result engine hResume
    rw [run_bind_ok (EStateM.run_set _ _)] at h
    split at h
    · cases h
    · cases h
      exact ⟨⟨result, hResume⟩, rfl⟩

/-- A cycle with a report has answered at its wait and resumed the engine. -/
theorem answer_of_cycle (hRun : runToInput.run s = .ok () s₁)
    (hCycle : cycle.run s = .ok report s') : ∃ answered s₂,
      answer.run { s₁ with outputsSeen := s₁.engine.printed.length } = .ok answered s₂ ∧
      answered = (report.input, report.success) ∧
      (∃ result, s₂.engine.resume report.input = .ok (result, s'.engine)) ∧
      s' = { s₂ with engine := s'.engine } := by
  obtain ⟨signalled, hLook⟩ := run_lookForStuckSignal s₁
  unfold cycle at hCycle
  rw [run_bind_ok hRun, run_bind_ok hLook, run_bind_ok (EStateM.run_get _)] at hCycle
  obtain ⟨⟨input, success⟩, s₂, hAnswer, hCycle⟩ := run_bind_eq_ok hCycle
  obtain ⟨_, s₃, hResume, hCycle⟩ := run_bind_eq_ok hCycle
  cases hCycle
  exact ⟨_, s₂, hAnswer, rfl, resume_ok hResume⟩

/-- A report on an attempt. -/
theorem judged_of_cycle (hRun : runToInput.run s = .ok () s₁)
    (hPhase : s₁.controller.phase = .awaitingAttemptResult)
    (hCycle : cycle.run s = .ok report s') : ∃ success, report.success = some success ∧
      s'.builder = (s₁.recordSlotOutcome success).builder ∧ s'.seeker = s₁.seeker ∧
      ∃ result, s₁.engine.resume report.input = .ok (result, s'.engine) := by
  obtain ⟨_, s₂, hAnswer, hReport, hResume, hAfter⟩ := answer_of_cycle hRun hCycle
  obtain ⟨input, success, answered, hJudge, hBuilder, hSeeker, hEngine, -⟩ :=
    answer_judge (s := { s₁ with outputsSeen := s₁.engine.printed.length }) hPhase
  cases hAnswer.symm.trans hJudge
  obtain ⟨-, hSuccess⟩ := Prod.mk.inj hReport
  rw [hEngine] at hResume
  rw [hAfter]
  refine ⟨success, hSuccess.symm, hBuilder.trans ?_, hSeeker, hResume⟩
  exact builder_recordSlotOutcome_congr (s := s₁)
    (t := { s₁ with outputsSeen := s₁.engine.printed.length }) rfl rfl rfl success

/-- A report on a target. -/
theorem sent_of_cycle (hRun : runToInput.run s = .ok () s₁)
    (hPhase : s₁.controller.phase = .sendTarget) (hCycle : cycle.run s = .ok report s') :
    report.success = none ∧ s'.builder = s₁.builder ∧ s'.seeker = s₁.seeker ∧
      ∃ result, s₁.engine.resume report.input = .ok (result, s'.engine) := by
  obtain ⟨answered, s₂, hAnswer, hReport, hResume, hAfter⟩ := answer_of_cycle hRun hCycle
  rw [run_answer_send (s := { s₁ with outputsSeen := s₁.engine.printed.length }) hPhase] at hAnswer
  cases hAnswer
  obtain ⟨-, hSuccess⟩ := Prod.mk.inj hReport
  rw [hAfter]
  exact ⟨hSuccess.symm, rfl, rfl, hResume⟩

-- ---------------------------------------------------------------------------
-- Rebuildings and restarts
-- ---------------------------------------------------------------------------

omit [RandomSource σ] in
theorem upkept_rebuilding (s : Session σ) : s.Upkept (stateAfter (Session.reinitialize.run s)) := by
  rw [reinitialize_eq]
  split
  · rename_i e builder hBuild
    refine ⟨rfl, rfl, fun hSound => ?_⟩
    have hAfter := hSound.build s.controller.target s.failureStreak
    rwa [hBuild] at hAfter
  · rename_i seeker builder hBuild
    refine ⟨rfl, rfl, fun hSound => ?_⟩
    have hAfter := hSound.build s.controller.target s.failureStreak
    rwa [hBuild] at hAfter

omit [RandomSource σ] in
/-- A rebuilding fails only for want of a program. -/
theorem assembly_of_rebuilding (h : reinitialize.run s = .error e s') :
    ∃ cause, e = .assembly cause := by
  rw [reinitialize_eq] at h
  split at h
  · cases h
    exact ⟨_, rfl⟩
  · cases h

omit [RandomSource σ] in
/-- A restart that succeeds was one that was left. -/
theorem restart_ok (h : restart.run s = .ok () s') :
    s.restarts < s.config.session.maxRestarts ∧ s'.restarts = s.restarts + 1 ∧
      s'.config = s.config := by
  rw [restart_eq] at h
  split at h
  · cases h
  · rename_i hLeft
    have hKept := upkept_rebuilding { s with restarts := s.restarts + 1 }
    rw [h] at hKept
    exact ⟨Nat.lt_of_not_le hLeft, hKept.restarts, hKept.config⟩

omit [RandomSource σ] in
/-- A restart fails because none is left, or for want of a program, and then it counts. -/
theorem restart_error (h : restart.run s = .error e s') :
    (s.config.session.maxRestarts ≤ s.restarts ∧ e = .tooManyRestarts s.restarts ∧ s' = s) ∨
      (s.restarts < s.config.session.maxRestarts ∧ s'.restarts = s.restarts + 1 ∧
        ∃ cause, e = .assembly cause) := by
  rw [restart_eq] at h
  split at h
  · rename_i hNone
    cases h
    exact .inl ⟨hNone, rfl, rfl⟩
  · rename_i hLeft
    have hKept := upkept_rebuilding { s with restarts := s.restarts + 1 }
    rw [h] at hKept
    exact .inr ⟨Nat.lt_of_not_le hLeft, hKept.restarts, assembly_of_rebuilding h⟩

-- ---------------------------------------------------------------------------
-- What calls keep
-- ---------------------------------------------------------------------------

section Kept

variable {P : Session σ → Prop} (hCycle : ∀ s, P s → P (stateAfter (cycle.run s)))
  (hRestart : ∀ s, P s → P (stateAfter (restart.run s)))
  (hRebuild : ∀ s, P s → P (stateAfter (Session.reinitialize.run s)))

include hCycle hRestart in
theorem stateAfter_trainFrom (counter : Nat) : ∀ (remaining : Nat) {s : Session σ}, P s →
    P (stateAfter ((trainFrom counter remaining).run s)) := by
  induction counter with
  | zero => exact fun _ _ h => h
  | succ counter ih =>
    intro remaining s h
    cases remaining with
    | zero => exact h
    | succ remaining =>
      have hAfter := hCycle s h
      rw [trainFrom_succ]
      cases hRun : cycle.run s with
      | ok report s₁ =>
        rw [hRun] at hAfter
        exact ih remaining hAfter
      | error e s₁ =>
        rw [hRun] at hAfter
        have hAgain := hRestart s₁ hAfter
        dsimp only
        split
        · cases hRun : restart.run s₁ with
          | ok _ s₂ =>
            rw [hRun] at hAgain
            exact ih (remaining + 1) hAgain
          | error e s₂ =>
            rw [hRun] at hAgain
            exact hAgain
        · exact hAfter

include hCycle hRestart hRebuild

/-- What every cycle, every restart and every rebuilding keeps is kept by every call. -/
theorem stateAfter_call (call : Call) (h : P s) : P (call.after s) := by
  cases call with
  | cycle => exact hCycle s h
  | rebuild => exact hRebuild s h
  | train cycles =>
    unfold Call.after
    dsimp only
    rw [train_eq, stateAfter_withSummary]
    exact stateAfter_trainFrom hCycle hRestart _ cycles h

theorem stateAfter_calls (calls : List Call) (h : P s) : P (afterCalls calls s) := by
  induction calls generalizing s with
  | nil => exact h
  | cons call calls ih => exact ih (stateAfter_call hCycle hRestart hRebuild call h)

end Kept

-- ---------------------------------------------------------------------------
-- Programs are never out of supply
-- ---------------------------------------------------------------------------

/-- Engine and controller are in step, and the builder is sound. -/
structure Supplied (c : Config) (s : Session σ) : Prop where
  inStep : InStep c s
  builder : s.builder.Sound c.seeker c.protocol

variable {c : Config}

theorem Supplied.cycle (h : Supplied c s) : Supplied c (stateAfter (cycle.run s)) :=
  ⟨(onward_cycle h.inStep).inStep, (upkept_cycle s).builder h.builder⟩

theorem Supplied.reinitialize (h : Supplied c s) :
    Supplied c (stateAfter (Session.reinitialize.run s)) :=
  ⟨(onward_call h.inStep .rebuild).inStep, (upkept_rebuilding s).builder h.builder⟩

theorem Supplied.restart (h : Supplied c s) : Supplied c (stateAfter (restart.run s)) := by
  rw [restart_eq]
  split
  · exact h
  · exact Supplied.reinitialize (s := { s with restarts := s.restarts + 1 })
      ⟨{ h.inStep with }, h.builder⟩

/-- A session starts with a builder from which there has been a program. -/
theorem supplied_start {random₁ random₂ : σ} (h : start c random₁ random₂ = .ok s) :
    Supplied c s := by
  refine ⟨(start_spec h).1, ?_⟩
  obtain ⟨builder, seeker, builder', -, hBuilder, hBuild, rfl⟩ := start_eq_ok h
  have hAfter := (SeekerBuilder.sound_start hBuilder).build
    (Controller.start c.controller c.protocol random₂).target 0
  rwa [hBuild] at hAfter

theorem supplied_afterCalls {random₁ random₂ : σ} (h : start c random₁ random₂ = .ok s)
    (calls : List Call) : Supplied c (afterCalls calls s) :=
  stateAfter_calls (P := Supplied c) (fun _ => Supplied.cycle) (fun _ => Supplied.restart)
    (fun _ => Supplied.reinitialize) calls (supplied_start h)

/-- There is a program for the target of a session. -/
theorem Supplied.exists_build (h : Supplied c s) : ∃ seeker builder,
    (SeekerBuilder.build s.controller.target s.failureStreak).run s.builder =
      .ok seeker builder := by
  obtain ⟨l, hSeeker, hProtocol, -⟩ := h.inStep.engine
  have hModulus := l.modulus_lt
  rw [hSeeker] at hModulus
  rw [h.inStep.streak]
  refine l.exists_build ?_ (Nat.lt_trans h.inStep.target hModulus)
  rw [hSeeker, hProtocol]
  exact h.builder

/-- A restart fails only if none is left. -/
theorem Supplied.restart_ne_assembly (h : Supplied c s) (cause : AssemblyError) :
    Session.restart.run s ≠ .error (.assembly cause) s' := by
  rw [restart_eq]
  split
  · exact nofun
  · obtain ⟨seeker, builder, hBuild⟩ := h.exists_build
    rw [reinitialize_eq]
    dsimp only
    rw [hBuild]
    exact nofun

end Session

end FactorMachine
