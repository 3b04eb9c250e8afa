import FactorMachine.Proofs.Config.Validation
import FactorMachine.Proofs.Seeker.Steady
import FactorMachine.Proofs.Trainer.Controller
import FactorMachine.Trainer.Session

/-!
# FactorMachine — engine and controller in lockstep

A session starts its program on the very target that its controller holds, and so does every
rebuilding. From then on the two never get out of step: when the program waits for feedback, it has
just printed the controller's target, and when it waits for a target, the controller is about
to send one. All attempts are hits, and no slot is ever rewritten.

The invariant is `InStep`. It says which of its two waits the engine is on its way to, and that
this is the one that the controller expects. A run that uses up its steps stops on the way, and
a rebuilding may come at any time; both leave a session in step.

## Results

* `cycle_hit`, `cycle_send` — what a cycle reports, and that it keeps a session in step.
* `reinitialize_spec`       — a fresh program is in step again.
* `start_spec`              — a session starts in step.
-/

namespace FactorMachine

theorem Config.Consistent.possible {c : Config} (h : c.Consistent) :
    SeekerBuilder.layoutProblem? c.seeker = none := by
  obtain ⟨hSlots, hModulus, hOffset, hMarker, -, -, -, -⟩ := h
  unfold SeekerBuilder.layoutProblem?
  rw [if_neg (by omega), if_neg (by omega), if_neg (by omega)]

namespace Session

open Seeker Terms

variable {σ : Type} [RandomSource σ]

-- ---------------------------------------------------------------------------
-- Being in step
-- ---------------------------------------------------------------------------

/-- The engine runs a program for the configuration and is on its way to the wait that the
controller expects. -/
def OnTrack (c : Config) (e : Engine σ) (target : Nat) (expected : InteractionPhase) : Prop :=
  ∃ l : Layout, l.config = c.seeker ∧ l.protocol = c.protocol ∧
    match expected with
    | .awaitingAttemptResult =>
      (l.terms (l.steadyFeedback σ c.engine.maxStackDepth target)).Leads e
    | .sendTarget => (l.terms (l.steadyTarget σ c.engine.maxStackDepth)).Leads e

/-- Engine and controller of a session are in step. -/
structure InStep (c : Config) (s : Session σ) : Prop where
  consistent : c.Consistent
  config : s.config = c
  controllerConfig : s.controller.config = c.controller
  controllerProtocol : s.controller.protocol = c.protocol
  builderConfig : s.builder.config = c.seeker
  builderProtocol : s.builder.protocol = c.protocol
  target : s.controller.target < c.seeker.attemptModulus
  streak : s.failureStreak = 0
  settled : s.engine.Settled
  engine : OnTrack c s.engine s.controller.target s.controller.phase

variable {c : Config} {s : Session σ}

-- ---------------------------------------------------------------------------
-- The parts of a cycle
-- ---------------------------------------------------------------------------

theorem stopOf?_eq {e : Engine σ} {r : StepResult} {t : Terms σ} (hLeads : t.Leads e)
    (hNever : ¬ t.mayFault) (hStanding : e.Standing r) (budget : Nat) :
    stopOf? r budget =
      if e.phase = .awaitingInput then none else some (.stepBudgetExhausted budget) := by
  have hHalted : (e.phase == .halted) = false := beq_false_of_ne hLeads.not_halted
  unfold stopOf?
  rw [hStanding.fault, hLeads.fault_eq_none hNever, hStanding.halted, hStanding.needsInput, hHalted]
  by_cases hAwaits : e.phase = .awaitingInput
  · rw [if_pos hAwaits, hAwaits]
    rfl
  · rw [if_neg hAwaits, beq_false_of_ne hAwaits]
    rfl

/-- Running on within a stretch ends at the wait, or with the steps used up. -/
theorem runToInput_of_leads {t : Terms σ} (hLeads : t.Leads s.engine) (hNever : ¬ t.mayFault)
    (hGoesOn : ∀ e, ¬ t.ends e) (hSettled : s.engine.Settled) :
    ∃ e : Engine σ, t.Leads e ∧ e.Settled ∧
      runToInput.run s = if e.phase = .awaitingInput then .ok () { s with engine := e }
        else .error (.stepBudgetExhausted s.config.session.maxStepsPerCycle)
          { s with engine := e } := by
  -- wherever the run stops, its last result tells whether it is at the wait
  obtain ⟨r, e, hRun, hSettled', hLeads', hStanding⟩ :=
    hLeads.runUntilBlocked hGoesOn hSettled s.config.session.maxStepsPerCycle
  refine ⟨e, hLeads', hSettled', ?_⟩
  have hStop := stopOf?_eq hLeads' hNever hStanding s.config.session.maxStepsPerCycle
  unfold runToInput
  rw [run_bind_ok (EStateM.run_get s)]
  dsimp only
  rw [hRun]
  dsimp only
  rw [run_bind_ok (EStateM.run_set _ _), hStop]
  by_cases hAwaits : e.phase = .awaitingInput
  · rw [if_pos hAwaits, if_pos hAwaits]
    rfl
  · rw [if_neg hAwaits, if_neg hAwaits]
    rfl

omit [RandomSource σ] in
theorem run_lookForStuckSignal (s : Session σ) : ∃ signalled,
    lookForStuckSignal.run s = .ok signalled { s with outputsSeen := s.engine.printed.length } :=
  ⟨_, rfl⟩

omit [RandomSource σ] in
/-- An outcome is credited to a slot, or it is owed to none. -/
theorem recordSlotOutcome_cases (s : Session σ) (success : Bool) :
    s.recordSlotOutcome success = s ∨ ∃ address instruction, s.recordSlotOutcome success =
      { s with builder := (s.builder.recordOutcome address instruction success).2 } := by
  unfold recordSlotOutcome
  split
  · exact .inl rfl
  · split
    · exact .inl rfl
    · split
      · exact .inl rfl
      · exact .inr ⟨_, _, rfl⟩

omit [RandomSource σ] in
theorem recordSlotOutcome_eq (s : Session σ) (success : Bool) : ∃ bank,
    s.recordSlotOutcome success = { s with builder := { s.builder with bank } } := by
  rcases recordSlotOutcome_cases s success with hSame | ⟨address, instruction, hCredited⟩
  · exact ⟨s.builder.bank, hSame⟩
  · exact ⟨_, hCredited⟩

/-- The answer to an attempt that is a hit. -/
theorem run_answer_hit {controller : Controller σ}
    (hPhase : s.controller.phase = .awaitingAttemptResult)
    (hRespond : s.controller.respond s.engine.lastOutput =
      ((s.config.protocol.successFeedback : Int), controller)) : ∃ bank,
    answer.run s = .ok ((s.config.protocol.successFeedback : Int), some true)
      { s with controller, builder := { s.builder with bank }, failureStreak := 0 } := by
  obtain ⟨bank, hRecord⟩ := recordSlotOutcome_eq { s with controller } true
  refine ⟨bank, ?_⟩
  unfold answer
  rw [run_bind_ok (EStateM.run_get s)]
  dsimp only
  rw [hRespond, if_pos hPhase]
  dsimp only
  rw [decide_eq_true rfl, hRecord]
  rfl

/-- The answer where a target is wanted. -/
theorem run_answer_send (hPhase : s.controller.phase = .sendTarget) :
    answer.run s = .ok ((s.controller.target : Int), none)
      { s with controller := { s.controller with phase := .awaitingAttemptResult } } := by
  unfold answer
  rw [run_bind_ok (EStateM.run_get s)]
  dsimp only
  rw [Controller.respond_send hPhase, if_neg (by rw [hPhase]; decide)]
  rfl

theorem run_resume {e : Engine σ} {v : Word} {r : StepResult}
    (hResume : s.engine.resume v = .ok (r, e)) (hFault : r.fault = none) :
    (resume v).run s = .ok () { s with engine := e } := by
  unfold resume
  rw [run_bind_ok (EStateM.run_get s), hResume]
  dsimp only
  rw [run_bind_ok (EStateM.run_set _ _), hFault]
  rfl

/-- A cycle whose parts are known. -/
theorem run_cycle {s₁ s₂ s₃ s₄ : Session σ} {signalled : Bool} {input : Word}
    {success : Option Bool} (hRun : runToInput.run s = .ok () s₁)
    (hLook : lookForStuckSignal.run s₁ = .ok signalled s₂)
    (hAnswer : answer.run s₂ = .ok (input, success) s₃)
    (hResume : (resume input).run s₃ = .ok () s₄) :
    cycle.run s =
      .ok ⟨input, s₂.engine.lastOutput, success, signalled, s₄.controller.snapshot⟩ s₄ := by
  unfold cycle
  rw [run_bind_ok hRun, run_bind_ok hLook, run_bind_ok (EStateM.run_get s₂), run_bind_ok hAnswer,
    run_bind_ok hResume]
  rfl

-- ---------------------------------------------------------------------------
-- Cycles
-- ---------------------------------------------------------------------------

/-- Running on leaves a session in step. -/
theorem InStep.withEngine (h : InStep c s) {e : Engine σ} (hSettled : e.Settled)
    (hTrack : OnTrack c e s.controller.target s.controller.phase) :
    InStep c { s with engine := e } :=
  { h with settled := hSettled, engine := hTrack }

/-- A cycle within a stretch uses up its steps on the way, or it gets to the wait. -/
theorem cycle_of_leads {t : Terms σ} (hLeads : t.Leads s.engine) (hNever : ¬ t.mayFault)
    (hGoesOn : ∀ e, ¬ t.ends e) (hSettled : s.engine.Settled) :
    ∃ e : Engine σ, t.Leads e ∧ e.Settled ∧
      (cycle.run s = .error (.stepBudgetExhausted s.config.session.maxStepsPerCycle)
          { s with engine := e } ∨
        e.phase = .awaitingInput ∧ runToInput.run s = .ok () { s with engine := e }) := by
  obtain ⟨e, hLeads', hSettled', hRun⟩ := runToInput_of_leads hLeads hNever hGoesOn hSettled
  refine ⟨e, hLeads', hSettled', ?_⟩
  by_cases hAwaits : e.phase = .awaitingInput
  · rw [if_pos hAwaits] at hRun
    exact .inr ⟨hAwaits, hRun⟩
  · rw [if_neg hAwaits] at hRun
    refine .inl ?_
    unfold cycle
    rw [run_bind_error hRun]

/-- A cycle uses up its steps on the way to the wait, which leaves the session in step, or it
gets there. -/
theorem cycle_within (h : InStep c s) {t : Terms σ} (hLeads : t.Leads s.engine)
    (hNever : ¬ t.mayFault) (hGoesOn : ∀ e, ¬ t.ends e)
    (hTrack : ∀ e, t.Leads e → OnTrack c e s.controller.target s.controller.phase) :
    (∃ s', InStep c s' ∧ s'.controller = s.controller ∧
      cycle.run s = .error (.stepBudgetExhausted c.session.maxStepsPerCycle) s') ∨
    ∃ e : Engine σ, e.phase = .awaitingInput ∧ t.waits e ∧
      runToInput.run s = .ok () { s with engine := e } := by
  obtain rfl : s.config = c := h.config
  obtain ⟨e, hLeads', hSettled, hRun | ⟨hAwaits, hRun⟩⟩ :=
    cycle_of_leads hLeads hNever hGoesOn h.settled
  · exact .inl ⟨{ s with engine := e }, h.withEngine hSettled (hTrack e hLeads'), rfl, hRun⟩
  · exact .inr ⟨e, hAwaits, hLeads'.waits hAwaits, hRun⟩

/-- A target is a numbered index, and not the stuck signal. -/
theorem InStep.target_spec (h : InStep c s) {l : Layout} (hSeeker : l.config = c.seeker) :
    s.controller.target < primeCount ∧
      s.controller.target ≠ s.controller.protocol.stuckSignal := by
  have hModulus := l.modulus_lt
  rw [hSeeker] at hModulus
  refine ⟨Nat.lt_trans h.target hModulus, ?_⟩
  have hRange := h.consistent.stuckSignal
  have hTarget := h.target
  rw [h.controllerProtocol]
  omega

/-- A cycle that expects an attempt sees a hit, or uses up its steps. -/
theorem cycle_hit (h : InStep c s) (hPhase : s.controller.phase = .awaitingAttemptResult) :
    ∃ s', InStep c s' ∧
      ((cycle.run s = .error (.stepBudgetExhausted c.session.maxStepsPerCycle) s' ∧
          s'.controller = s.controller) ∨
        ∃ report, cycle.run s = .ok report s' ∧ report.success = some true ∧
          report.input = c.protocol.successFeedback ∧
          report.lastOutput = some (toString s.controller.target) ∧
          s'.controller.phase = .sendTarget) := by
  obtain ⟨l, hSeeker, hProtocol, hLeads⟩ := h.engine
  rw [hPhase] at hLeads
  rcases cycle_within h hLeads id (fun _ => id) fun e hLeads' => ⟨l, hSeeker, hProtocol, by
    rw [hPhase]
    exact hLeads'⟩ with ⟨s', hInStep, hSame, hRun⟩ | ⟨e, hAwaits, hWaits, hRun⟩
  · exact ⟨s', hInStep, .inl ⟨hRun, hSame⟩⟩
  · obtain rfl : s.config = c := h.config
    obtain ⟨hPrinted, m, printed, random, hValid, hSteady, hAt⟩ := hWaits
    obtain ⟨hSmall, hSignal⟩ := h.target_spec hSeeker
    -- the program has printed the target, so the controller answers with a hit
    have hOutput : e.lastOutput = some (toString s.controller.target) := by
      unfold Engine.lastOutput
      rw [hPrinted]
      rfl
    obtain ⟨controller, hRespond, hSetup, hThen, tier, hTier⟩ := Controller.respond_hit hPhase
      (Nat.lt_trans hSmall (by decide : primeCount < Word.bound)) hSignal
    rw [h.controllerProtocol, ← hOutput] at hRespond
    let s₂ : Session σ := { s with engine := e, outputsSeen := e.printed.length }
    obtain ⟨signalled, hLook⟩ := run_lookForStuckSignal { s with engine := e }
    obtain ⟨bank, hAnswer⟩ := run_answer_hit (s := s₂) hPhase hRespond
    -- the program takes it for a hit as well, and is on its way to the wait for a target
    obtain ⟨r, b, hResumed, hStanding, hSettled', hTarget'⟩ :=
      leads_of_steady_hit (l := l) hValid hSteady (hSeeker ▸ h.consistent.depth) hAwaits hAt
    rw [hProtocol] at hResumed
    have hFault : r.fault = none := hStanding.fault.trans (hTarget'.fault_eq_none id)
    have hCycle := run_cycle hRun hLook hAnswer (run_resume hResumed hFault)
    refine ⟨_, ?_, .inr ⟨_, hCycle, rfl, rfl, hOutput, hThen⟩⟩
    exact {
      consistent := h.consistent
      config := rfl
      controllerConfig := hSetup.config.trans h.controllerConfig
      controllerProtocol := hSetup.protocol.trans h.controllerProtocol
      builderConfig := h.builderConfig
      builderProtocol := h.builderProtocol
      target := by
        rw [h.controllerConfig] at hTier
        exact Nat.lt_of_le_of_lt hTier (h.consistent.targets tier)
      streak := rfl
      settled := hSettled'
      engine := ⟨l, hSeeker, hProtocol, by rw [hThen]; exact hTarget'⟩ }

/-- A cycle that expects to send a target does so, or uses up its steps. -/
theorem cycle_send (h : InStep c s) (hPhase : s.controller.phase = .sendTarget) :
    ∃ s', InStep c s' ∧
      ((cycle.run s = .error (.stepBudgetExhausted c.session.maxStepsPerCycle) s' ∧
          s'.controller = s.controller) ∨
        ∃ report, cycle.run s = .ok report s' ∧ report.success = none ∧
          report.input = s.controller.target ∧
          s'.controller.target = s.controller.target ∧
          s'.controller.phase = .awaitingAttemptResult) := by
  obtain ⟨l, hSeeker, hProtocol, hLeads⟩ := h.engine
  rw [hPhase] at hLeads
  rcases cycle_within h hLeads id (fun _ => id) fun e hLeads' => ⟨l, hSeeker, hProtocol, by
    rw [hPhase]
    exact hLeads'⟩ with ⟨s', hInStep, hSame, hRun⟩ | ⟨e, hAwaits, hWaits, hRun⟩
  · exact ⟨s', hInStep, .inl ⟨hRun, hSame⟩⟩
  · obtain rfl : s.config = c := h.config
    obtain ⟨m, printed, random, hValid, hSteady, hAt⟩ := hWaits
    obtain ⟨hSmall, -⟩ := h.target_spec hSeeker
    let s₂ : Session σ := { s with engine := e, outputsSeen := e.printed.length }
    obtain ⟨signalled, hLook⟩ := run_lookForStuckSignal { s with engine := e }
    have hAnswer := run_answer_send (s := s₂) hPhase
    -- the program begins an iteration with the target as its attempt
    obtain ⟨r, b, hResumed, hStanding, hSettled', hFeedback⟩ :=
      leads_of_steady_target (l := l) hValid hSteady (hSeeker ▸ h.consistent.depth) hSmall hAwaits
        hAt
    have hFault : r.fault = none := hStanding.fault.trans (hFeedback.fault_eq_none id)
    have hCycle := run_cycle hRun hLook hAnswer (run_resume hResumed hFault)
    refine ⟨_, ?_, .inr ⟨_, hCycle, rfl, rfl, rfl, rfl⟩⟩
    exact {
      consistent := h.consistent
      config := rfl
      controllerConfig := h.controllerConfig
      controllerProtocol := h.controllerProtocol
      builderConfig := h.builderConfig
      builderProtocol := h.builderProtocol
      target := h.target
      streak := h.streak
      settled := hSettled'
      engine := ⟨l, hSeeker, hProtocol, hFeedback⟩ }

-- ---------------------------------------------------------------------------
-- Fresh programs
-- ---------------------------------------------------------------------------

/-- A program that comes out of building has the layout that the configuration asks for. -/
theorem layout_of_build {b b' : SeekerBuilder} {target streak : Nat} {seeker : GoalSeeker}
    (hConsistent : c.Consistent) (hConfig : b.config = c.seeker)
    (hProtocol : b.protocol = c.protocol)
    (hBuild : (SeekerBuilder.build target streak).run b = .ok seeker b') :
    (b'.config = c.seeker ∧ b'.protocol = c.protocol) ∧ ∃ l : Layout, l.config = c.seeker ∧
      l.protocol = c.protocol ∧ l.Describes seeker target ∧
      l.config.slotCount + 8 ≤ c.engine.maxStackDepth := by
  have hPossible : SeekerBuilder.layoutProblem? b.config = none := by
    rw [hConfig]
    exact hConsistent.possible
  obtain ⟨hSameConfig, hSameProtocol, l, hSeeker, hLayoutProtocol, hDescribes⟩ :=
    build_spec hPossible hBuild
  rw [hConfig] at hSeeker hSameConfig
  rw [hProtocol] at hLayoutProtocol hSameProtocol
  exact ⟨⟨hSameConfig, hSameProtocol⟩, l, hSeeker, hLayoutProtocol, hDescribes,
    hSeeker ▸ hConsistent.depth⟩

/-- A fresh program for the target is on its way to the wait for feedback on it. -/
theorem onTrack_of_build {b b' : SeekerBuilder} {target streak : Nat} {seeker : GoalSeeker}
    {e : Engine σ} (hConsistent : c.Consistent) (hConfig : b.config = c.seeker)
    (hProtocol : b.protocol = c.protocol)
    (hBuild : (SeekerBuilder.build target streak).run b = .ok seeker b')
    (hDepth : e.maxStackDepth = c.engine.maxStackDepth) :
    (b'.config = c.seeker ∧ b'.protocol = c.protocol) ∧
      OnTrack c (e.reinitialize seeker.program seeker.initialStack) target
        .awaitingAttemptResult := by
  obtain ⟨hSame, l, hSeeker, hLayoutProtocol, hDescribes, hRoom⟩ :=
    layout_of_build hConsistent hConfig hProtocol hBuild
  have hFrom := from_zero_steady (l := l) (m := .start target) hDescribes.valid (fun _ => rfl) hRoom
    [] e.random
  have hStart : l.config.slotCount + 1 ≤ c.engine.maxStackDepth := by omega
  exact ⟨hSame, l, hSeeker, hLayoutProtocol,
    hFrom (Layout.fits_start hStart) _ rfl (hDescribes.shows_reinitialize hDepth)⟩

theorem OnTrack.depth {e : Engine σ} {target : Nat} {expected : InteractionPhase}
    (h : OnTrack c e target expected) : e.maxStackDepth = c.engine.maxStackDepth := by
  obtain ⟨l, -, -, hLeads⟩ := h
  cases expected with
  | sendTarget => exact hLeads.keeps.depth
  | awaitingAttemptResult => exact hLeads.keeps.depth

omit [RandomSource σ] in
theorem reinitialize_eq (s : Session σ) : reinitialize.run s =
    match (SeekerBuilder.build s.controller.target s.failureStreak).run s.builder with
    | .error e builder => .error (.assembly e) { s with builder }
    | .ok seeker builder => .ok () { s with
        builder
        seeker
        engine := s.engine.reinitialize seeker.program seeker.initialStack
        controller := s.controller.expectAttempt
        outputsSeen := 0 } := by
  unfold reinitialize
  rw [run_bind_ok (EStateM.run_get s)]
  cases (SeekerBuilder.build s.controller.target s.failureStreak).run s.builder <;> rfl

/-- A fresh program puts a session in step again; without one nothing changes but the bank of
slots. -/
theorem reinitialize_spec (h : InStep c s) : ∃ s', InStep c s' ∧
    ((Session.reinitialize.run s = .ok () s' ∧ s'.controller.phase = .awaitingAttemptResult) ∨
      ∃ e, reinitialize.run s = .error (.assembly e) s' ∧ s'.controller = s.controller) := by
  have hRun := reinitialize_eq s
  cases hBuild : (SeekerBuilder.build s.controller.target s.failureStreak).run s.builder with
  | ok seeker builder =>
    obtain ⟨⟨hConfig, hProtocol⟩, hTrack⟩ :=
      onTrack_of_build h.consistent h.builderConfig h.builderProtocol hBuild h.engine.depth
    rw [hBuild] at hRun
    refine ⟨_, ?_, .inl ⟨hRun, rfl⟩⟩
    exact {
      consistent := h.consistent
      config := h.config
      controllerConfig := h.controllerConfig
      controllerProtocol := h.controllerProtocol
      builderConfig := hConfig
      builderProtocol := hProtocol
      target := h.target
      streak := h.streak
      settled := Engine.settled_reinitialize _ _ _
      engine := hTrack }
  | error e builder =>
    -- no program came out, and the engine goes on with the old one
    obtain ⟨hConfig, hProtocol⟩ := SeekerBuilder.build_error hBuild
    rw [hBuild] at hRun
    refine ⟨_, ?_, .inr ⟨e, hRun, rfl⟩⟩
    exact { h with
      builderConfig := hConfig.trans h.builderConfig
      builderProtocol := hProtocol.trans h.builderProtocol }

omit [RandomSource σ] in
theorem restart_eq (s : Session σ) : restart.run s =
    if s.config.session.maxRestarts ≤ s.restarts then .error (.tooManyRestarts s.restarts) s
    else reinitialize.run { s with restarts := s.restarts + 1 } := by
  unfold restart
  rw [run_bind_ok (EStateM.run_get s)]
  by_cases hNone : s.config.session.maxRestarts ≤ s.restarts
  · rw [if_pos hNone, if_pos hNone]
    rfl
  · rw [if_neg hNone, if_neg hNone]
    rfl

theorem restart_spec (h : InStep c s) : ∃ s', InStep c s' ∧
    ((restart.run s = .ok () s' ∧ s'.controller.phase = .awaitingAttemptResult) ∨
      ∃ e, restart.run s = .error e s' ∧ s'.controller = s.controller) := by
  rw [restart_eq]
  split
  · exact ⟨s, h, .inr ⟨.tooManyRestarts s.restarts, rfl, rfl⟩⟩
  · have hCounted : InStep c { s with restarts := s.restarts + 1 } := { h with }
    obtain ⟨s', hInStep, ⟨hOk, hPhase⟩ | ⟨e, hError, hSame⟩⟩ := reinitialize_spec hCounted
    · exact ⟨s', hInStep, .inl ⟨hOk, hPhase⟩⟩
    · exact ⟨s', hInStep, .inr ⟨.assembly e, hError, hSame⟩⟩

/-- There is a session when the configuration is accepted and there is a program for the first
target. -/
theorem exists_start {builder builder' : SeekerBuilder} {seeker : GoalSeeker} {target : Nat}
    (random₁ : σ) {random₂ : σ} (hValid : c.validate = .ok ())
    (hBuilder : SeekerBuilder.start c.seeker c.protocol = .ok builder)
    (hTarget : (Controller.start c.controller c.protocol random₂).target = target)
    (hBuild : (SeekerBuilder.build target 0).run builder = .ok seeker builder') :
    ∃ s, start c random₁ random₂ = .ok s := by
  unfold start
  rw [hValid]
  dsimp only
  rw [hBuilder]
  dsimp only
  rw [hTarget, hBuild]
  exact ⟨_, rfl⟩

/-- What a session starts from. -/
theorem start_eq_ok {random₁ random₂ : σ} (h : start c random₁ random₂ = .ok s) :
    let controller := Controller.start c.controller c.protocol random₂
    ∃ builder seeker builder', c.validate = .ok () ∧
      SeekerBuilder.start c.seeker c.protocol = .ok builder ∧
      (SeekerBuilder.build controller.target 0).run builder = .ok seeker builder' ∧
      s = {
        config := c
        engine := .start seeker.program seeker.initialStack c.engine.maxStackDepth
          c.engine.historyLimit random₁
        controller
        builder := builder'
        seeker
        failureStreak := 0
        restarts := 0
        outputsSeen := 0 } := by
  unfold start at h
  split at h
  · cases h
  rename_i hValid
  dsimp only at h
  split at h
  · cases h
  rename_i builder hBuilder
  split at h
  · cases h
  rename_i seeker builder' hBuild
  cases h
  exact ⟨builder, seeker, builder', hValid, hBuilder, hBuild, rfl⟩

/-- A session starts in step. -/
theorem start_spec {random₁ random₂ : σ} (h : start c random₁ random₂ = .ok s) :
    InStep c s ∧ s.controller.phase = .awaitingAttemptResult := by
  obtain ⟨builder, seeker, builder', hValid, hBuilder, hBuild, rfl⟩ := start_eq_ok h
  have hConsistent := Config.validate_eq_ok_iff.mp hValid
  obtain ⟨⟨hConfig, hProtocol⟩, -⟩ := SeekerBuilder.start_spec hBuilder
  obtain ⟨⟨hConfig', hProtocol'⟩, hTrack⟩ := onTrack_of_build hConsistent hConfig hProtocol hBuild
    (e := Engine.start [] [] c.engine.maxStackDepth c.engine.historyLimit random₁) rfl
  refine ⟨?_, rfl⟩
  exact {
    consistent := hConsistent
    config := rfl
    controllerConfig := rfl
    controllerProtocol := rfl
    builderConfig := hConfig'
    builderProtocol := hProtocol'
    target := Nat.lt_of_le_of_lt (Controller.drawTarget_le c.controller c.controller.startingTier
      random₂) (hConsistent.targets _)
    streak := rfl
    settled := Engine.settled_start _ _ _ _ _
    engine := hTrack }

end Session

end FactorMachine
