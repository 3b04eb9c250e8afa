import FactorMachine.Proofs.Text.Numeral
import FactorMachine.Trainer.Controller

/-!
# FactorMachine — what the controller answers

A controller that expects an attempt and is shown its own target answers with the feedback for a
hit, and draws a new target within the range of a tier, which it sends next. Its configuration
and its protocol stay as they were.

## Results

* `respond_hit`   — the answer to the target itself.
* `respond_judge` — the answer to any output where an attempt is expected.
* `respond_send`  — the answer after a hit.
-/

namespace FactorMachine

namespace Controller

variable {σ : Type}

/-- What is the same in two controllers that one session has one after the other. -/
structure SameSetup (c c' : Controller σ) : Prop where
  config : c'.config = c.config
  protocol : c'.protocol = c.protocol

theorem countQuickSuccess_setup (c : Controller σ) : c.SameSetup c.countQuickSuccess := by
  unfold countQuickSuccess
  split <;> exact ⟨rfl, rfl⟩

variable [RandomSource σ]

/-- A drawn target is in the range of its tier. -/
theorem drawTarget_le (config : ControllerConfig) (tier : Tier) (random : σ) :
    (drawTarget config tier random).1 ≤ (config.levels.params tier).rangeMax :=
  Nat.le_of_lt_succ (RandomSource.draw_lt 64 _ random (Nat.succ_pos _))

theorem newTarget_spec (c : Controller σ) :
    c.SameSetup c.newTarget ∧ c.newTarget.target ≤ (c.config.levels.params c.tier).rangeMax :=
  ⟨⟨rfl, rfl⟩, drawTarget_le c.config c.tier c.random⟩

/-- After a hit there is a new target to be sent. -/
theorem onHit_spec (c : Controller σ) : c.SameSetup c.onHit ∧ c.onHit.phase = .sendTarget ∧
    ∃ tier, c.onHit.target ≤ (c.config.levels.params tier).rangeMax := by
  unfold onHit
  dsimp only
  split
  · -- a quick success may change the tier that the target is drawn for
    have hCounted := countQuickSuccess_setup ({ c with struggleStreak := 0 } : Controller σ)
    obtain ⟨hSetup, hTarget⟩ :=
      newTarget_spec (({ c with struggleStreak := 0 } : Controller σ).countQuickSuccess)
    rw [hCounted.config] at hTarget
    exact ⟨⟨hSetup.config.trans hCounted.config, hSetup.protocol.trans hCounted.protocol⟩, rfl,
      ({ c with struggleStreak := 0 } : Controller σ).countQuickSuccess.tier, hTarget⟩
  · exact ⟨⟨rfl, rfl⟩, rfl, _, drawTarget_le c.config c.tier c.random⟩

/-- The text of a target is an attempt at it, unless it is the stuck signal. -/
theorem attemptOf?_target {protocol : ProtocolConfig} {target : Nat}
    (hWord : target < Word.bound) (hSignal : target ≠ protocol.stuckSignal) :
    attemptOf? protocol (some (toString target)) = some (target : Int) := by
  have hOther : toString target ≠ toString protocol.stuckSignal := Text.toString_ne hSignal
  unfold attemptOf?
  dsimp only
  rw [if_neg hOther]
  exact Text.integer?_toString hWord

/-- The target itself is a hit. -/
theorem respond_hit {c : Controller σ} (hPhase : c.phase = .awaitingAttemptResult)
    (hWord : c.target < Word.bound) (hSignal : c.target ≠ c.protocol.stuckSignal) :
    ∃ c', c.respond (some (toString c.target)) = ((c.protocol.successFeedback : Int), c') ∧
      c.SameSetup c' ∧ c'.phase = .sendTarget ∧
        ∃ tier, c'.target ≤ (c.config.levels.params tier).rangeMax := by
  unfold respond
  rw [hPhase]
  dsimp only
  unfold judge
  dsimp only
  rw [attemptOf?_target hWord hSignal]
  dsimp only
  rw [if_pos rfl]
  obtain ⟨hSetup, hThen, hTarget⟩ := onHit_spec { c with
    attemptsOnTarget := nextCount c.attemptsOnTarget, monitor := c.monitor.record true }
  exact ⟨_, rfl, ⟨hSetup.config, hSetup.protocol⟩, hThen, hTarget⟩

/-- A struggle may lower the tier, and then a target of the lower one is drawn. -/
theorem countStruggle_spec (c : Controller σ) : c.SameSetup c.countStruggle ∧
    c.countStruggle.phase = c.phase ∧ (c.countStruggle.target = c.target ∨
      ∃ tier, c.countStruggle.target ≤ (c.config.levels.params tier).rangeMax) := by
  unfold countStruggle
  split
  · exact ⟨⟨rfl, rfl⟩, rfl, .inr ⟨_, drawTarget_le c.config c.tier.down c.random⟩⟩
  · exact ⟨⟨rfl, rfl⟩, rfl, .inl rfl⟩

/-- After a miss the controller goes on expecting attempts. -/
theorem onMiss_spec (c : Controller σ) : c.SameSetup c.onMiss ∧ c.onMiss.phase = c.phase ∧
    (c.onMiss.target = c.target ∨
      ∃ tier, c.onMiss.target ≤ (c.config.levels.params tier).rangeMax) := by
  unfold onMiss
  split
  · exact ⟨⟨rfl, rfl⟩, rfl, .inl rfl⟩
  · obtain ⟨hSetup, hPhase, hTarget⟩ :=
      countStruggle_spec ({ c with quickSuccessStreak := 0 } : Controller σ)
    exact ⟨⟨hSetup.config, hSetup.protocol⟩, hPhase, hTarget⟩

/-- Whatever was printed, the answer is the feedback for a hit, and the next one sends a target,
or it is the feedback for a failed attempt, and another attempt is expected. -/
theorem respond_judge {c : Controller σ} (hPhase : c.phase = .awaitingAttemptResult)
    (output : Option String) : ∃ c', c.SameSetup c' ∧
      (c'.target = c.target ∨ ∃ tier, c'.target ≤ (c.config.levels.params tier).rangeMax) ∧
      ((c.respond output = ((c.protocol.successFeedback : Int), c') ∧ c'.phase = .sendTarget) ∨
        (c.respond output = ((c.protocol.failureFeedback : Int), c') ∧
          c'.phase = .awaitingAttemptResult)) := by
  unfold respond
  rw [hPhase]
  dsimp only
  unfold judge
  dsimp only
  split
  · -- what was printed is no attempt
    exact ⟨{ c with
        attemptsOnTarget := nextCount c.attemptsOnTarget, monitor := c.monitor.record false },
      ⟨rfl, rfl⟩, .inl rfl, .inr ⟨rfl, hPhase⟩⟩
  · split
    · obtain ⟨hSetup, hThen, hTarget⟩ := onHit_spec { c with
        attemptsOnTarget := nextCount c.attemptsOnTarget, monitor := c.monitor.record true }
      exact ⟨_, ⟨hSetup.config, hSetup.protocol⟩, .inr hTarget, .inl ⟨rfl, hThen⟩⟩
    · obtain ⟨hSetup, hThen, hTarget⟩ := onMiss_spec { c with
        attemptsOnTarget := nextCount c.attemptsOnTarget, monitor := c.monitor.record false }
      exact ⟨_, ⟨hSetup.config, hSetup.protocol⟩, hTarget, .inr ⟨rfl, hThen.trans hPhase⟩⟩

/-- After a hit the target is sent. -/
theorem respond_send {c : Controller σ} (hPhase : c.phase = .sendTarget) (output : Option String) :
    c.respond output = ((c.target : Int), { c with phase := .awaitingAttemptResult }) := by
  unfold respond
  rw [hPhase]

end Controller

end FactorMachine
