import FactorMachine.Proofs.Trainer.Controller

/-!
# FactorMachine — what a controller keeps in order

A controller is asked for responses to whatever a program prints, or to nothing at all, and is told
now and then that the program was rebuilt. Tier, target, attempts and streaks are changed by
different parts of its answers: a rise comes before the target that is drawn for the higher tier, an
output that is no attempt changes next to nothing, and a fall leaves the phase as it was.

In between, everything fits together. The target is in the range of the tier, also after the tier
has changed. A target that is yet to be sent has not been tried. No streak is as long as it takes to
change the tier, where a threshold of zero counts as one, and only one of the two streaks is under
way. This is `Sound`, and it holds for every configuration, consistent or not.

A streak is counted on without looking whether there is room: its threshold is a count of the same
width, and the streak has ended when it gets there. The attempts at a target have no such end. Their
count begins again at zero, and tells the attempts as long as there are fewer than it can hold.

## Results

* `nextCount_mod`      — how counts of attempts go on after the greatest number.
* `OpenStreaks.room`   — there is room to count a streak on.
* `response`           — what a response can be, in cases.
* `Sound.respond`      — a response keeps a controller in order.
* `near_respond`       — a response moves the tier by one level at most.
* `order_of_reachable` — every controller in use is in order.
-/

namespace FactorMachine

namespace Tier

/-- The place of a tier among all of them, the easiest first. -/
def level (t : Tier) : Nat := all.idxOf t

/-- Two tiers are the same or next to each other. -/
def Near (t t' : Tier) : Prop := t'.level ≤ t.level + 1 ∧ t.level ≤ t'.level + 1

theorem Near.refl (t : Tier) : t.Near t := ⟨Nat.le_succ _, Nat.le_succ _⟩

theorem near_up (t : Tier) : t.Near t.up := by
  cases t <;> exact ⟨by decide, by decide⟩

theorem near_down (t : Tier) : t.Near t.down := by
  cases t <;> exact ⟨by decide, by decide⟩

end Tier

-- ---------------------------------------------------------------------------
-- Counts of attempts
-- ---------------------------------------------------------------------------

theorem streakBound_pos : 0 < streakBound := by decide

/-- What counts `n` attempts modulo `streakBound` counts `n + 1` of them next. -/
theorem nextCount_mod (n : Nat) : nextCount (n % streakBound) = (n + 1) % streakBound :=
  Nat.mod_add_mod n streakBound 1

/-- A count begins again after the greatest number that it can hold. -/
example : nextCount (streakBound - 1) = 0 := by decide

theorem nextCount_of_room {n : Nat} (hRoom : n + 1 < streakBound) : nextCount n = n + 1 :=
  Nat.mod_eq_of_lt hRoom

namespace Controller

variable {σ : Type}

/-- One more attempt has been counted, and nothing has followed from it yet. -/
def counted (c : Controller σ) (success : Bool) : Controller σ :=
  { c with attemptsOnTarget := nextCount c.attemptsOnTarget, monitor := c.monitor.record success }

-- ---------------------------------------------------------------------------
-- Order
-- ---------------------------------------------------------------------------

/-- Neither streak is complete, and one of them at most is under way. -/
structure OpenStreaks (c : Controller σ) : Prop where
  quick : c.quickSuccessStreak < max 1 c.config.quickSuccessesToUpgrade
  struggle : c.struggleStreak < max 1 c.config.strugglesToDowngrade
  single : c.quickSuccessStreak = 0 ∨ c.struggleStreak = 0

/-- A controller in order. -/
structure Sound (c : Controller σ) : Prop extends OpenStreaks c where
  target : c.target ≤ c.params.rangeMax
  untried : c.phase = .sendTarget → c.attemptsOnTarget = 0

variable {c : Controller σ}

theorem OpenStreaks.countQuickSuccess (h : c.OpenStreaks) (hNone : c.struggleStreak = 0) :
    c.countQuickSuccess.OpenStreaks := by
  unfold Controller.countQuickSuccess
  split
  · exact ⟨by dsimp only; omega, h.struggle, .inl rfl⟩
  · exact ⟨by dsimp only; omega, h.struggle, .inr hNone⟩

/-- A streak never comes to the end of what its count can hold: its threshold is no greater. -/
theorem OpenStreaks.room (h : c.OpenStreaks)
    (hQuick : c.config.quickSuccessesToUpgrade < streakBound)
    (hStruggle : c.config.strugglesToDowngrade < streakBound) :
    c.quickSuccessStreak + 1 < streakBound ∧ c.struggleStreak + 1 < streakBound := by
  have hOne : 1 < streakBound := by decide
  have hOpenQuick := h.quick
  have hOpenStruggle := h.struggle
  exact ⟨by omega, by omega⟩

theorem Sound.expectAttempt (h : c.Sound) : c.expectAttempt.Sound where
  quick := h.quick
  struggle := h.struggle
  single := h.single
  target := h.target
  untried hSend := by cases hSend

/-- An attempt is counted only where one is expected. -/
theorem Sound.counted (h : c.Sound) (hPhase : c.phase = .awaitingAttemptResult)
    (success : Bool) : (c.counted success).Sound where
  quick := h.quick
  struggle := h.struggle
  single := h.single
  target := h.target
  untried hSend := by
    have hSame : c.phase = .sendTarget := hSend
    rw [hPhase] at hSame
    cases hSame

variable [RandomSource σ]

/-- With a target drawn for its tier, a controller is in order again, whatever comes next. -/
theorem OpenStreaks.newTarget (h : c.OpenStreaks) (phase : InteractionPhase) :
    ({ c.newTarget with phase } : Controller σ).Sound where
  quick := h.quick
  struggle := h.struggle
  single := h.single
  target := drawTarget_le c.config c.tier c.random
  untried _ := rfl

theorem OpenStreaks.onHit (h : c.OpenStreaks) : c.onHit.Sound := by
  have hEnded : ({ c with struggleStreak := 0 } : Controller σ).OpenStreaks :=
    ⟨h.quick, by dsimp only; omega, .inr rfl⟩
  have hStreaks : (if c.attemptsOnTarget ≤ c.params.quickSuccessThreshold then
      ({ c with struggleStreak := 0 } : Controller σ).countQuickSuccess
      else { c with struggleStreak := 0, quickSuccessStreak := 0 }).OpenStreaks := by
    split
    · exact hEnded.countQuickSuccess rfl
    · exact ⟨by dsimp only; omega, hEnded.struggle, .inl rfl⟩
  exact hStreaks.newTarget .sendTarget

theorem Sound.countStruggle (h : c.Sound) (hNone : c.quickSuccessStreak = 0) :
    c.countStruggle.Sound := by
  unfold Controller.countStruggle
  split
  · have hEnded :
        ({ c with tier := c.tier.down, struggleStreak := 0 } : Controller σ).OpenStreaks :=
      ⟨h.quick, by dsimp only; omega, .inr rfl⟩
    exact hEnded.newTarget c.phase
  · exact ⟨⟨h.quick, by dsimp only; omega, .inl hNone⟩, h.target, h.untried⟩

theorem Sound.onMiss (h : c.Sound) : c.onMiss.Sound := by
  unfold Controller.onMiss
  split
  · exact h
  · have hEnded : ({ c with quickSuccessStreak := 0 } : Controller σ).Sound :=
      ⟨⟨by dsimp only; omega, h.struggle, .inl rfl⟩, h.target, h.untried⟩
    exact hEnded.countStruggle rfl

-- ---------------------------------------------------------------------------
-- Responses
-- ---------------------------------------------------------------------------

/-- The word that answers an output, and the controller after that. -/
inductive Response (c : Controller σ) (output : Option String) : Word × Controller σ → Prop
  | send (phase : c.phase = .sendTarget) : Response c output (c.target, c.expectAttempt)
  | unusable (phase : c.phase = .awaitingAttemptResult)
      (attempt : attemptOf? c.protocol output = none) :
      Response c output (c.protocol.failureFeedback, c.counted false)
  | hit (phase : c.phase = .awaitingAttemptResult)
      (attempt : attemptOf? c.protocol output = some (c.target : Int)) :
      Response c output (c.protocol.successFeedback, (c.counted true).onHit)
  | miss {other : Word} (phase : c.phase = .awaitingAttemptResult)
      (attempt : attemptOf? c.protocol output = some other) (wrong : other ≠ c.target) :
      Response c output (c.protocol.failureFeedback, (c.counted false).onMiss)

theorem response (c : Controller σ) (output : Option String) :
    Response c output (c.respond output) := by
  cases hPhase : c.phase with
  | sendTarget =>
    rw [respond_send hPhase]
    exact .send hPhase
  | awaitingAttemptResult =>
    have hJudge : c.respond output = c.judge output := by
      unfold respond
      rw [hPhase]
    rw [hJudge]
    unfold judge
    dsimp only
    cases hAttempt : attemptOf? c.protocol output with
    | none => exact .unusable hPhase hAttempt
    | some attempt =>
      dsimp only
      split
      · rename_i hHit
        rw [hHit] at hAttempt
        exact .hit hPhase hAttempt
      · rename_i hWrong
        exact .miss hPhase hAttempt hWrong

/-- Whatever was printed, the response leaves the controller in order. -/
theorem Sound.respond (h : c.Sound) (output : Option String) : (c.respond output).2.Sound := by
  have hResponse := c.response output
  generalize c.respond output = answer at hResponse ⊢
  cases hResponse with
  | send => exact h.expectAttempt
  | unusable hPhase => exact h.counted hPhase false
  | hit hPhase => exact (h.counted hPhase true).onHit
  | miss hPhase => exact (h.counted hPhase false).onMiss

theorem near_onHit (c : Controller σ) : c.tier.Near c.onHit.tier := by
  unfold onHit countQuickSuccess newTarget
  dsimp only
  split
  · split
    · exact Tier.near_up c.tier
    · exact Tier.Near.refl c.tier
  · exact Tier.Near.refl c.tier

theorem near_onMiss (c : Controller σ) : c.tier.Near c.onMiss.tier := by
  unfold onMiss countStruggle newTarget
  dsimp only
  split
  · exact Tier.Near.refl c.tier
  · split
    · exact Tier.near_down c.tier
    · exact Tier.Near.refl c.tier

/-- A response moves the tier by one level at most. -/
theorem near_respond (c : Controller σ) (output : Option String) :
    c.tier.Near (c.respond output).2.tier := by
  have hResponse := c.response output
  generalize c.respond output = answer at hResponse ⊢
  cases hResponse with
  | send => exact Tier.Near.refl c.tier
  | unusable => exact Tier.Near.refl c.tier
  | hit => exact (c.counted true).near_onHit
  | miss => exact (c.counted false).near_onMiss

-- ---------------------------------------------------------------------------
-- Controllers in use
-- ---------------------------------------------------------------------------

theorem setup_respond (c : Controller σ) (output : Option String) :
    c.SameSetup (c.respond output).2 := by
  have hResponse := c.response output
  generalize c.respond output = answer at hResponse ⊢
  cases hResponse with
  | send => exact ⟨rfl, rfl⟩
  | unusable => exact ⟨rfl, rfl⟩
  | hit =>
    obtain ⟨hSetup, -⟩ := onHit_spec (c.counted true)
    exact ⟨hSetup.config, hSetup.protocol⟩
  | miss =>
    obtain ⟨hSetup, -⟩ := onMiss_spec (c.counted false)
    exact ⟨hSetup.config, hSetup.protocol⟩

/-- The controllers that a configuration leads to, whatever is drawn and whatever they are shown. -/
inductive Reachable (config : ControllerConfig) (protocol : ProtocolConfig) : Controller σ → Prop
  | start (random : σ) : Reachable config protocol (start config protocol random)
  | respond {c : Controller σ} (h : Reachable config protocol c) (output : Option String) :
      Reachable config protocol (c.respond output).2
  | expectAttempt {c : Controller σ} (h : Reachable config protocol c) :
      Reachable config protocol c.expectAttempt

theorem sound_start (config : ControllerConfig) (protocol : ProtocolConfig) (random : σ) :
    (start config protocol random).Sound where
  quick := by
    show 0 < max 1 config.quickSuccessesToUpgrade
    omega
  struggle := by
    show 0 < max 1 config.strugglesToDowngrade
    omega
  single := .inl rfl
  target := drawTarget_le config config.startingTier random
  untried _ := rfl

variable {config : ControllerConfig} {protocol : ProtocolConfig}

theorem Reachable.sound (h : Reachable config protocol c) : c.Sound := by
  induction h with
  | start random => exact sound_start config protocol random
  | respond _ output ih => exact ih.respond output
  | expectAttempt _ ih => exact ih.expectAttempt

theorem Reachable.config_eq (h : Reachable config protocol c) : c.config = config := by
  induction h with
  | start => rfl
  | respond _ output ih => exact (setup_respond _ output).config.trans ih
  | expectAttempt _ ih => exact ih

/-- Every controller in use has its target within the range of its tier, has not tried a target that
it is about to send, and has at most one streak under way, which is shorter than what changes the
tier. Whatever it is shown next, its tier moves by one level at most. -/
theorem order_of_reachable (h : Reachable config protocol c) :
    c.target ≤ (config.levels.params c.tier).rangeMax ∧
    (c.phase = .sendTarget → c.attemptsOnTarget = 0) ∧
    c.quickSuccessStreak < max 1 config.quickSuccessesToUpgrade ∧
    c.struggleStreak < max 1 config.strugglesToDowngrade ∧
    (c.quickSuccessStreak = 0 ∨ c.struggleStreak = 0) ∧
    ∀ output, c.tier.Near (c.respond output).2.tier := by
  have hSound := h.sound
  have hConfig := h.config_eq
  subst hConfig
  exact ⟨hSound.target, hSound.untried, hSound.quick, hSound.struggle, hSound.single,
    c.near_respond⟩

/-- With a threshold of zero the first hit raises the tier, and the target that is drawn then is
beyond the range of the tier before. -/
theorem order_of_reachable_risen :
    ∃ c : Controller (List Nat), Reachable { quickSuccessesToUpgrade := 0 } {} c ∧
      c.tier = .hard ∧ c.phase = .sendTarget ∧ c.target = 12 ∧
      c.target ≤ (({ } : DifficultyLevels).params c.tier).rangeMax ∧ c.attemptsOnTarget = 0 ∧
      c.quickSuccessStreak < 1 ∧ c.struggleStreak < 2 := by
  have hStart : Reachable { quickSuccessesToUpgrade := 0 } {}
    (start { quickSuccessesToUpgrade := 0 } {} [7, 12]) := .start _
  have hPhase : (((start { quickSuccessesToUpgrade := 0 } {} [7, 12]).respond
    (some "7")).2 : Controller (List Nat)).phase = .sendTarget := by decide
  have hHit := hStart.respond (some "7")
  obtain ⟨hTarget, hUntried, hQuick, hStruggle, -, -⟩ := order_of_reachable hHit
  exact ⟨_, hHit, by decide, hPhase, by decide, hTarget, hUntried hPhase, hQuick, hStruggle⟩

end Controller

end FactorMachine
