import FactorMachine.Proofs.Config.Validation
import FactorMachine.Proofs.Seeker.Waits
import FactorMachine.Proofs.Trainer.Controller

/-!
# FactorMachine — program and controller mean the same by every word

A goal-seeker that is driven by a controller gets one word for each of its requests, and
nothing else tells it which of its two waits the controller has in mind. They agree all the same.
The controller sends a target exactly after it has sent the feedback for a hit, and the program
asks for a target exactly after it has read that feedback. What happens in between does not
matter to it: rises and falls of the tier, a target drawn on the failure path, rewritten slots,
the stuck signal.

At the wait for feedback, what was printed last is the attempt on top of the stack. It is below
the modulus, and so never the stuck signal, even where the program has just said that it is
stuck.

The program starts on any target, which need not be the controller's, so its attempts are mostly
misses. With few words of stack a frame may outgrow it, and the engine then stops for good.

## Results

* `meets_hit`, `meets_miss`, `meets_target` — where each answer leads.
* `Meets.driveFrom` — driving keeps program and controller together.
* `Meets.waits`     — which wait a program is at that is together with a controller.
* `drive_meets`     — the wait that the program is at is the one that the controller has in mind.
-/

namespace FactorMachine

namespace Seeker

open Terms Statement

-- ---------------------------------------------------------------------------
-- Where each answer leads
-- ---------------------------------------------------------------------------

variable {σ : Type} [RandomSource σ] {l : Layout} {depth : Nat} {m : Contents} {a : Engine σ}

/-- The stretch to the wait where a word of the given kind is expected. Nothing is on the stack
there but the frame, and the attempt is below the modulus. -/
def Layout.meeting (σ : Type) (l : Layout) (depth : Nat) (expected : InteractionPhase) :
    Watch σ where
  __ := Watch.idle depth
  waits e := ∃ m printed random, l.Valid m ∧ m.attempt < l.config.attemptModulus ∧
    match expected with
    | .awaitingAttemptResult => l.AtFeedback (.idle depth) m [] printed random e
    | .sendTarget => l.AtTarget (.idle depth) m [] printed random e

/-- An iteration leads to the wait for feedback. -/
theorem from_zero_meeting (hValid : l.Valid m) (hAttempt : m.attempt < l.config.attemptModulus)
    (printed : List Word) (random : σ) :
    (l.terms (l.meeting σ depth .awaitingAttemptResult)).From 0 ⟨l.picture m,
      List.replicate l.config.slotCount 0 ++ [(l.config.frameMarker : Int)], [], printed,
        random⟩ :=
  from_iteration hValid (.inl trivial) fun _ _ hAt =>
    ⟨m, printed, random, hValid, hAttempt, hAt.of_depth rfl⟩

/-- The feedback for a hit leads to the wait for a target. -/
theorem meets_hit (hAwaits : a.phase = .awaitingInput)
    (hWaits : (l.meeting σ depth .awaitingAttemptResult).waits a) :
    ∃ r b, a.resume l.protocol.successFeedback = .ok (r, b) ∧
      (l.terms (l.meeting σ depth .sendTarget)).Leads b := by
  obtain ⟨m, printed, random, hValid, hAttempt, hAt⟩ := hWaits
  have hHere : l.AtFeedback (l.meeting σ depth .sendTarget) m [] printed random a :=
    hAt.of_depth rfl
  obtain ⟨r, b, hResume, -, -, hLeads⟩ := leads_resume hAwaits hHere (.inl trivial) id
    (from_feedback_hit hValid (.inl trivial) fun e _ hThere => by
      rw [leftOver_of_lt hAttempt] at hThere
      exact ⟨_, _, _, hValid.store .failures (by decide), hAttempt, hThere.of_depth rfl⟩)
  exact ⟨r, b, hResume, hLeads⟩

/-- Any other feedback leads to the next wait for feedback. -/
theorem meets_miss {v : Word} (hAwaits : a.phase = .awaitingInput)
    (hWaits : (l.meeting σ depth .awaitingAttemptResult).waits a)
    (hMiss : v ≠ l.protocol.successFeedback) : ∃ r b, a.resume v = .ok (r, b) ∧
      (l.terms (l.meeting σ depth .awaitingAttemptResult)).Leads b := by
  obtain ⟨m, printed, random, hValid, hAttempt, hAt⟩ := hWaits
  have hHere : l.AtFeedback (l.meeting σ depth .awaitingAttemptResult) m [] printed random a :=
    hAt.of_depth rfl
  obtain ⟨r, b, hResume, -, -, hLeads⟩ := leads_resume hAwaits hHere (.inl trivial) id
    (from_judge (.inl trivial) (fun hHit => absurd hHit hMiss) fun _ =>
      from_miss hValid (.inl ⟨trivial, fun _ => trivial⟩) (.inl trivial) (.inl trivial)
        (.inl trivial) fun offset place kind _ _ random' _ _ _ hAfter => by
          -- the whole frame was taken down, as its attempt is not the marker
          rw [leftOver_of_lt hAttempt]
          exact from_zero_meeting hAfter (l.nextAttempt_lt m offset) _ _)
  exact ⟨r, b, hResume, hLeads⟩

/-- A target leads to the wait for feedback. -/
theorem meets_target {target : Nat} (hAwaits : a.phase = .awaitingInput)
    (hWaits : (l.meeting σ depth .sendTarget).waits a)
    (hTarget : target < l.config.attemptModulus) : ∃ r b, a.resume target = .ok (r, b) ∧
      (l.terms (l.meeting σ depth .awaitingAttemptResult)).Leads b := by
  obtain ⟨m, printed, random, hValid, -, hAt⟩ := hWaits
  have hHere : l.AtTarget (l.meeting σ depth .awaitingAttemptResult) m [] printed random a :=
    hAt.of_depth rfl
  obtain ⟨r, b, hResume, -, -, hLeads⟩ := leads_resume hAwaits hHere (.inl trivial) id
    (from_target hValid (.inl ⟨trivial, fun _ => trivial⟩) (.inl trivial) (.inl trivial)
      fun n hn hSame => by
        obtain rfl : target = n := Int.ofNat_inj.mp hSame
        exact from_zero_meeting (Layout.Valid.retarget hValid hn) hTarget _ _)
  exact ⟨r, b, hResume, hLeads⟩

omit [RandomSource σ] in
/-- At the wait for feedback the attempt on top of the stack is what was printed last. -/
theorem lastOutput_of_waits (hWaits : (l.meeting σ depth .awaitingAttemptResult).waits a) :
    ∃ attempt : Nat, attempt < l.config.attemptModulus ∧ a.stack.head? = some (attempt : Int) ∧
      a.lastOutput = some (toString attempt) := by
  obtain ⟨m, printed, random, -, hAttempt, hAt⟩ := hWaits
  refine ⟨(l.shape m).shown m.attempt, ?_, ?_, ?_⟩
  · unfold Shape.shown
    split <;> omega
  · rw [hAt.stack, frame_eq_cons]
    rfl
  · rw [Engine.lastOutput, hAt.printed]
    rfl

end Seeker

-- ---------------------------------------------------------------------------
-- Driving
-- ---------------------------------------------------------------------------

open Seeker Terms

variable {σ τ : Type} [RandomSource σ] {c : Config} {l : Layout} {e : Engine σ}
  {controller : Controller τ}

/-- The engine is on its way to the wait that the controller has in mind. -/
structure Meets (c : Config) (l : Layout) (e : Engine σ) (controller : Controller τ) : Prop where
  config : controller.config = c.controller
  protocol : controller.protocol = c.protocol
  target : controller.target < c.seeker.attemptModulus
  engine : (l.terms (l.meeting σ c.engine.maxStackDepth controller.phase)).Leads e

/-- A step on the way leaves the two together. -/
theorem Meets.next (h : Meets c l e controller) (hPhase : e.phase.canStep = true) :
    Meets c l e.next controller :=
  { h with engine := h.engine.next hPhase id }

variable [RandomSource τ]

/-- The controller's answer at a wait sends the engine to the wait that it has in mind next. -/
theorem Meets.respond (h : Meets c l e controller) (hConsistent : c.Consistent)
    (hSeeker : l.config = c.seeker) (hProtocol : l.protocol = c.protocol)
    (hAwaits : e.phase = .awaitingInput) : ∃ v controller' r e',
      controller.respond e.lastOutput = (v, controller') ∧ e.resume v = .ok (r, e') ∧
        Meets c l e' controller' := by
  have hWaits := h.engine.waits hAwaits
  cases hPhase : controller.phase with
  | sendTarget =>
    rw [hPhase] at hWaits
    have hTarget := h.target
    rw [← hSeeker] at hTarget
    obtain ⟨r, e', hResume, hLeads⟩ := meets_target hAwaits hWaits hTarget
    exact ⟨_, _, r, e', Controller.respond_send hPhase _, hResume, h.config, h.protocol, h.target,
      hLeads⟩
  | awaitingAttemptResult =>
    rw [hPhase] at hWaits
    obtain ⟨controller', hSetup, hTarget, hAnswer⟩ := Controller.respond_judge hPhase e.lastOutput
    rw [h.config] at hTarget
    rw [h.protocol, ← hProtocol] at hAnswer
    have hSmall : controller'.target < c.seeker.attemptModulus := by
      rcases hTarget with hSame | ⟨tier, hRange⟩
      · rw [hSame]
        exact h.target
      · exact Nat.lt_of_le_of_lt hRange (hConsistent.targets tier)
    rcases hAnswer with ⟨hRespond, hThen⟩ | ⟨hRespond, hThen⟩
    · obtain ⟨r, e', hResume, hLeads⟩ := meets_hit hAwaits hWaits
      exact ⟨_, controller', r, e', hRespond, hResume, hSetup.config.trans h.config,
        hSetup.protocol.trans h.protocol, hSmall, by rwa [hThen]⟩
    · have hMiss : (l.protocol.failureFeedback : Int) ≠ l.protocol.successFeedback := by
        rw [hProtocol]
        exact fun hSame => hConsistent.feedback (Int.ofNat_inj.mp hSame).symm
      obtain ⟨r, e', hResume, hLeads⟩ := meets_miss hAwaits hWaits hMiss
      exact ⟨_, controller', r, e', hRespond, hResume, hSetup.config.trans h.config,
        hSetup.protocol.trans h.protocol, hSmall, by rwa [hThen]⟩

omit [RandomSource τ] in
/-- A program that waits is at the wait that the controller has in mind, and at no other. -/
theorem Meets.waits {seeker : GoalSeeker} {target : Nat} (h : Meets c l e controller)
    (hDescribes : l.Describes seeker target) (hAwaits : e.phase = .awaitingInput) :
    (controller.phase = .sendTarget ∧ seeker.AtSuccessInput e ∧ ¬ seeker.AtMainInput e) ∨
      (controller.phase = .awaitingAttemptResult ∧ seeker.AtMainInput e ∧
        ¬ seeker.AtSuccessInput e) := by
  have hWaits := h.engine.waits hAwaits
  cases hPhase : controller.phase with
  | sendTarget =>
    rw [hPhase] at hWaits
    obtain ⟨m, printed, random, hValid, -, hAt⟩ := hWaits
    exact .inl ⟨rfl, atSuccessInput_of_atTarget hDescribes hValid hAwaits hAt⟩
  | awaitingAttemptResult =>
    rw [hPhase] at hWaits
    obtain ⟨m, printed, random, hValid, -, hAt⟩ := hWaits
    exact .inr ⟨rfl, atMainInput_of_atFeedback hDescribes hValid hAwaits hAt⟩

omit [RandomSource τ] in
/-- At the wait for feedback the attempt on top of the stack is what was printed last, and it is
not the stuck signal. -/
theorem Meets.lastOutput (h : Meets c l e controller) (hConsistent : c.Consistent)
    (hSeeker : l.config = c.seeker) (hAwaits : e.phase = .awaitingInput)
    (hPhase : controller.phase = .awaitingAttemptResult) :
    ∃ attempt : Nat, attempt < c.seeker.attemptModulus ∧ e.stack.head? = some (attempt : Int) ∧
      e.lastOutput = some (toString attempt) ∧
        e.lastOutput ≠ some (toString c.protocol.stuckSignal) := by
  have hWaits := h.engine.waits hAwaits
  rw [hPhase] at hWaits
  obtain ⟨attempt, hLt, hTop, hOutput⟩ := lastOutput_of_waits hWaits
  rw [hSeeker] at hLt
  refine ⟨attempt, hLt, hTop, hOutput, ?_⟩
  have hStuck := hConsistent.stuckSignal
  rw [hOutput]
  intro hSignal
  exact Text.toString_ne (show attempt ≠ c.protocol.stuckSignal by omega) (Option.some.inj hSignal)

/-- A fresh program and a fresh controller are together. -/
theorem meets_start {seeker : GoalSeeker} {target : Nat} (hConsistent : c.Consistent)
    (hSeeker : l.config = c.seeker) (hDescribes : l.Describes seeker target)
    (hTarget : target < c.seeker.attemptModulus) (random : σ) (random' : τ) :
    Meets c l (Engine.start seeker.program seeker.initialStack c.engine.maxStackDepth
      c.engine.historyLimit random) (Controller.start c.controller c.protocol random') where
  config := rfl
  protocol := rfl
  target := Nat.lt_of_le_of_lt (Controller.drawTarget_le c.controller _ random')
    (hConsistent.targets _)
  engine := from_zero_meeting hDescribes.valid (hSeeker ▸ hTarget) [] random (.inl trivial) _ rfl
    (hDescribes.shows_start _ random)

/-- Driving is never refused, and it leaves the two together. -/
theorem Meets.driveFrom (hConsistent : c.Consistent) (hSeeker : l.config = c.seeker)
    (hProtocol : l.protocol = c.protocol) (maxSteps : Nat) :
    ∀ {e : Engine σ} {controller : Controller τ} {last : StepResult}, Meets c l e controller →
      ∃ r e' controller', driveFrom maxSteps last e controller = .ok (r, e', controller') ∧
        Meets c l e' controller' := by
  -- by induction on the calls that are left, each of which is a step or an answer
  induction maxSteps with
  | zero =>
    intro e controller last h
    exact ⟨last, e, controller, rfl, h⟩
  | succ maxSteps ih =>
    intro e controller last h
    unfold FactorMachine.driveFrom
    have hStep : e.phase.canStep = true → ∃ r, e.step = .ok (r, e.next) := fun hPhase => by
      obtain ⟨r, hOk, -⟩ := Engine.step_next hPhase
      exact ⟨r, hOk⟩
    cases hPhase : e.phase with
    | ready =>
      obtain ⟨r, hOk⟩ := hStep (by rw [hPhase]; rfl)
      simp only [hOk]
      exact ih (h.next (by rw [hPhase]; rfl))
    | running =>
      obtain ⟨r, hOk⟩ := hStep (by rw [hPhase]; rfl)
      simp only [hOk]
      exact ih (h.next (by rw [hPhase]; rfl))
    | awaitingInput =>
      obtain ⟨v, controller', r, e', hRespond, hResume, hMeets⟩ :=
        h.respond hConsistent hSeeker hProtocol hPhase
      have hInput : InputSource.nextInput e.lastOutput controller = (some v, controller') := by
        simp only [InputSource.nextInput, hRespond]
      simp only [hInput, hResume]
      exact ih hMeets
    | halted => exact ⟨last, e, controller, rfl, h⟩
    | errored => exact ⟨last, e, controller, rfl, h⟩

/-- **Program and controller mean the same by every word.** A fresh program with any first target
and a fresh controller, driven for any number of calls with whatever either draws: driving is
never refused, and where the engine then waits, it is on the success path exactly if the
controller is to send a target. Where it waits for feedback, it has printed the attempt that is on
top of its stack, and not the stuck signal. -/
theorem drive_meets (hValid : c.validate = .ok ()) {b b' : SeekerBuilder}
    (hStart : SeekerBuilder.start c.seeker c.protocol = .ok b) {bank : SlotBank}
    {target streak : Nat} (hTarget : target < c.seeker.attemptModulus) {seeker : GoalSeeker}
    (hBuild : (SeekerBuilder.build target streak).run { b with bank } = .ok seeker b')
    (random : σ) (random' : τ) (maxSteps : Nat) : ∃ r e controller,
      drive (Engine.start seeker.program seeker.initialStack c.engine.maxStackDepth
        c.engine.historyLimit random) (Controller.start c.controller c.protocol random') maxSteps =
          .ok (r, e, controller) ∧
      (e.phase = .awaitingInput →
        (seeker.AtSuccessInput e ↔ controller.phase = .sendTarget) ∧
        (seeker.AtMainInput e ↔ controller.phase = .awaitingAttemptResult)) ∧
      (seeker.AtMainInput e → ∃ attempt : Nat, attempt < c.seeker.attemptModulus ∧
        e.stack.head? = some (attempt : Int) ∧ e.lastOutput = some (toString attempt) ∧
          e.lastOutput ≠ some (toString c.protocol.stuckSignal)) := by
  obtain ⟨⟨hConfig, hSame⟩, hPossible⟩ := SeekerBuilder.start_spec hStart
  obtain ⟨-, -, l, hSeeker, hProtocol, hDescribes⟩ :=
    Seeker.build_spec (b := { b with bank }) hPossible hBuild
  have hSeeker : l.config = c.seeker := hSeeker.trans hConfig
  have hProtocol : l.protocol = c.protocol := hProtocol.trans hSame
  have hConsistent := Config.validate_eq_ok_iff.mp hValid
  obtain ⟨r, e, controller, hDrive, hMeets⟩ := Meets.driveFrom hConsistent hSeeker hProtocol
    maxSteps (meets_start hConsistent hSeeker hDescribes hTarget random random')
  refine ⟨r, e, controller, hDrive, ?_, ?_⟩
  · intro hAwaits
    rcases hMeets.waits hDescribes hAwaits with ⟨hPhase, hSuccess, hMain⟩ | ⟨hPhase, hMain, hSuccess⟩
    · simp [hPhase, hSuccess, hMain]
    · simp [hPhase, hSuccess, hMain]
  · intro hMain
    obtain ⟨-, -, hAwaits, -⟩ := id hMain
    rcases hMeets.waits hDescribes hAwaits with ⟨-, -, hNot⟩ | ⟨hPhase, -, -⟩
    · exact absurd hMain hNot
    · exact hMeets.lastOutput hConsistent hSeeker hAwaits hPhase

/-- With a single slot, an engine that draws nothing but zeros and a controller that draws a five
are together after a hundred calls. -/
theorem drive_meets_smallest : ∃ (seeker : GoalSeeker) (r : StepResult) (e : Engine (List Nat))
    (controller : Controller (List Nat)),
    drive (Engine.start seeker.program seeker.initialStack 4096 4096 [])
      (Controller.start {} {} [5] : Controller (List Nat)) 100 = .ok (r, e, controller) ∧
    (e.phase = .awaitingInput → (seeker.AtSuccessInput e ↔ controller.phase = .sendTarget)) := by
  obtain ⟨b, seeker, b', hStart, hBuild, -⟩ := Seeker.exists_smallest
  obtain ⟨r, e, controller, hDrive, hMeets, -⟩ :=
    drive_meets (c := { seeker := { slotCount := 1 } }) (by decide) hStart (by decide) hBuild
      ([] : List Nat) ([5] : List Nat) 100
  exact ⟨seeker, r, e, controller, hDrive, fun hAwaits => (hMeets hAwaits).1⟩

end FactorMachine
