import FactorMachine.Proofs.Trainer.Streaks

/-!
# FactorMachine — a controller and the marks that it gave

A controller keeps counts of what has happened, and sets one or another of them back on the way: in
one place when the tier changes, in another when a target is drawn, and some outputs touch none of
them. Here the same is said without any counter. Every response gives a `Mark`, and the marks so far
are all that is needed to give the next one: how many quick hits there have been since something
ended them, how many struggles and attempts since the target was drawn, which tier they have led to,
and which target was drawn then. Only the attempts are told up to multiples of what their count can
hold, since it begins again at zero, and so are the comparisons that read this count.

A controller agrees with its marks at every moment, for any configuration and any outputs.

## Results

* `markNext`            — the mark that an output gets, from the earlier marks alone.
* `Follows.respond`     — a response keeps a controller in agreement with its marks.
* `tier_follows_marks`  — every field of a controller is told by its marks.
-/

namespace FactorMachine

/-- What a response was. -/
inductive Mark where
  /-- The target was sent. -/
  | sent
  /-- The output was no attempt. -/
  | unusable
  /-- A hit with few attempts, which may have raised the tier. -/
  | quickHit (upgrade : Bool)
  | slowHit
  /-- A miss that is not yet a struggle. -/
  | miss
  /-- A miss with many attempts, which may have lowered the tier. -/
  | struggle (downgrade : Bool)
  deriving DecidableEq, Repr

namespace Mark

def isHit : Mark → Bool
  | quickHit _ | slowHit => true
  | _ => false

def isQuickHit : Mark → Bool
  | quickHit _ => true
  | _ => false

def isStruggle : Mark → Bool
  | struggle _ => true
  | _ => false

/-- The response judged an output. -/
def isJudged : Mark → Bool
  | sent => false
  | _ => true

/-- The response drew a target: every hit does, and every fall to a lower tier. -/
def draws : Mark → Bool
  | quickHit _ | slowHit | struggle true => true
  | _ => false

/-- Quick hits are counted anew after this. -/
def endsQuickHits : Mark → Bool
  | slowHit | struggle _ | quickHit true => true
  | _ => false

/-- The tier after a response. -/
def move : Mark → Tier → Tier
  | quickHit true, tier => tier.up
  | struggle true, tier => tier.down
  | _, tier => tier

end Mark

namespace Controller

-- The marks are listed latest first.

/-- The quick hits since a slow hit, a struggle or a rise, whichever came last. -/
def quickHits (marks : List Mark) : Nat :=
  (marks.takeWhile (!·.endsQuickHits)).countP Mark.isQuickHit

/-- The marks since a target was drawn, which is since a hit or a fall, whichever came last. -/
def sinceDraw (marks : List Mark) : List Mark := marks.takeWhile (!·.draws)

def struggles (marks : List Mark) : Nat := (sinceDraw marks).countP Mark.isStruggle

/-- The responses that judged an output since a target was drawn. -/
def attempts (marks : List Mark) : Nat := (sinceDraw marks).countP Mark.isJudged

/-- The target is yet to be sent. -/
def awaitsSend (marks : List Mark) : Bool := marks.head?.any Mark.isHit

/-- The tier that the marks have led to. -/
def tierAfter (config : ControllerConfig) (marks : List Mark) : Tier :=
  marks.foldr Mark.move config.startingTier

section Counts

variable (m : Mark) (marks : List Mark)

theorem quickHits_cons : quickHits (m :: marks) =
    if m.endsQuickHits then 0 else quickHits marks + if m.isQuickHit then 1 else 0 := by
  unfold quickHits
  rw [List.takeWhile_cons]
  cases m.endsQuickHits
  · exact List.countP_cons
  · rfl

theorem countP_sinceDraw_cons (p : Mark → Bool) : (sinceDraw (m :: marks)).countP p =
    if m.draws then 0 else (sinceDraw marks).countP p + if p m then 1 else 0 := by
  unfold sinceDraw
  rw [List.takeWhile_cons]
  cases m.draws
  · exact List.countP_cons
  · rfl

theorem struggles_cons : struggles (m :: marks) =
    if m.draws then 0 else struggles marks + if m.isStruggle then 1 else 0 :=
  countP_sinceDraw_cons m marks Mark.isStruggle

theorem attempts_cons : attempts (m :: marks) =
    if m.draws then 0 else attempts marks + if m.isJudged then 1 else 0 :=
  countP_sinceDraw_cons m marks Mark.isJudged

end Counts

variable {σ : Type} [RandomSource σ]

/-- The target that was drawn last, and the source after that. The first one is drawn before any
response. -/
def drawn (config : ControllerConfig) (random : σ) : List Mark → Nat × σ
  | [] => drawTarget config config.startingTier random
  | m :: earlier =>
    if m.draws then drawTarget config (tierAfter config (m :: earlier)) (drawn config random earlier).2
    else drawn config random earlier

/-- What follows a hit with few attempts. -/
theorem onHit_of_quick {c : Controller σ}
    (hQuick : c.attemptsOnTarget ≤ c.params.quickSuccessThreshold) : c.onHit =
      { ({ c with struggleStreak := 0 } : Controller σ).countQuickSuccess.newTarget with
        phase := .sendTarget } :=
  congrArg (fun c : Controller σ => ({ c.newTarget with phase := .sendTarget } : Controller σ))
    (if_pos hQuick)

theorem onHit_of_slow {c : Controller σ}
    (hSlow : ¬ c.attemptsOnTarget ≤ c.params.quickSuccessThreshold) : c.onHit =
      { ({ c with struggleStreak := 0, quickSuccessStreak := 0 } : Controller σ).newTarget with
        phase := .sendTarget } :=
  congrArg (fun c : Controller σ => ({ c.newTarget with phase := .sendTarget } : Controller σ))
    (if_neg hSlow)

section Trace

variable (config : ControllerConfig) (protocol : ProtocolConfig) (random : σ)

/-- The mark that the next response gives. -/
def markNext (marks : List Mark) (output : Option String) : Mark :=
  if awaitsSend marks then .sent
  else
    match attemptOf? protocol output with
    | none => .unusable
    | some attempt =>
      let params := config.levels.params (tierAfter config marks)
      let tries := (attempts marks + 1) % streakBound
      if attempt = (drawn config random marks).1 then
        if tries ≤ params.quickSuccessThreshold then
          .quickHit (config.quickSuccessesToUpgrade ≤ quickHits marks + 1)
        else .slowHit
      else if params.maxAttemptsBeforeStruggle ≤ tries then
        .struggle (config.strugglesToDowngrade ≤ struggles marks + 1)
      else .miss

/-- The marks for a row of outputs. -/
def marksFor (outputs : List (Option String)) : List Mark :=
  outputs.foldl (fun marks output => markNext config protocol random marks output :: marks) []

end Trace

/-- The controller after it has responded to a row of outputs. -/
def respondAll (outputs : List (Option String)) (c : Controller σ) : Controller σ :=
  outputs.foldl (fun c output => (c.respond output).2) c

-- ---------------------------------------------------------------------------
-- Agreement
-- ---------------------------------------------------------------------------

/-- A controller is as its marks say. -/
structure Follows (config : ControllerConfig) (protocol : ProtocolConfig) (random : σ)
    (marks : List Mark) (c : Controller σ) : Prop where
  tier : c.tier = tierAfter config marks
  phase : c.phase = .sendTarget ↔ awaitsSend marks = true
  target : (c.target, c.random) = drawn config random marks
  tries : c.attemptsOnTarget = attempts marks % streakBound
  quick : c.quickSuccessStreak = quickHits marks
  struggle : c.struggleStreak = struggles marks
  config : c.config = config
  protocol : c.protocol = protocol

variable {config : ControllerConfig} {protocol : ProtocolConfig} {random : σ} {marks : List Mark}
  {c : Controller σ}

theorem follows_start (config : ControllerConfig) (protocol : ProtocolConfig) (random : σ) :
    Follows config protocol random [] (start config protocol random) :=
  ⟨rfl, ⟨nofun, nofun⟩, rfl, rfl, rfl, rfl, rfl, rfl⟩

namespace Follows

/-- A target that is drawn for the tier after a mark. -/
theorem draw {m : Mark} {phase : InteractionPhase} (hDraws : m.draws = true)
    (hTier : c.tier = tierAfter config (m :: marks))
    (hRandom : c.random = (drawn config random marks).2)
    (hPhase : phase = .sendTarget ↔ m.isHit = true)
    (hQuick : c.quickSuccessStreak = quickHits (m :: marks))
    (hStruggle : c.struggleStreak = struggles (m :: marks)) (hConfig : c.config = config)
    (hProtocol : c.protocol = protocol) :
    Follows config protocol random (m :: marks) { c.newTarget with phase } where
  tier := hTier
  phase := hPhase
  target := by
    rw [drawn, if_pos hDraws, ← hTier, ← hRandom, ← hConfig]
    rfl
  tries := by
    rw [attempts_cons, if_pos hDraws]
    rfl
  quick := hQuick
  struggle := hStruggle
  config := hConfig
  protocol := hProtocol

variable (h : Follows config protocol random marks c)
include h

theorem random_eq : c.random = (drawn config random marks).2 := congrArg Prod.snd h.target

theorem tries_counted (success : Bool) :
    (c.counted success).attemptsOnTarget = (attempts marks + 1) % streakBound :=
  (congrArg nextCount h.tries).trans (nextCount_mod (attempts marks))

theorem send : Follows config protocol random (.sent :: marks) c.expectAttempt where
  tier := h.tier
  phase := ⟨nofun, nofun⟩
  target := h.target
  tries := by
    rw [attempts_cons]
    exact h.tries
  quick := by
    rw [quickHits_cons]
    exact h.quick
  struggle := by
    rw [struggles_cons]
    exact h.struggle
  config := h.config
  protocol := h.protocol

/-- An attempt that only counts. -/
theorem count {m : Mark} (hm : m = .unusable ∨ m = .miss)
    (hPhase : c.phase = .awaitingAttemptResult) :
    Follows config protocol random (m :: marks) (c.counted false) := by
  have hSame : ¬ c.phase = .sendTarget := by
    rw [hPhase]
    exact nofun
  rcases hm with rfl | rfl
  all_goals
    refine ⟨h.tier, ⟨fun hSend => absurd hSend hSame, nofun⟩, h.target, ?_, ?_, ?_, h.config,
      h.protocol⟩
    · rw [attempts_cons]
      exact h.tries_counted false
    · rw [quickHits_cons]
      exact h.quick
    · rw [struggles_cons]
      exact h.struggle

/-- A hit with few attempts counts, and may raise the tier. -/
theorem quickHit
    (hQuick : (c.counted true).attemptsOnTarget ≤ (c.counted true).params.quickSuccessThreshold) :
    Follows config protocol random
      (.quickHit (config.quickSuccessesToUpgrade ≤ quickHits marks + 1) :: marks)
      (c.counted true).onHit := by
  rw [onHit_of_quick hQuick]
  by_cases hRise : config.quickSuccessesToUpgrade ≤ quickHits marks + 1
  · have hRise' : c.config.quickSuccessesToUpgrade ≤ c.quickSuccessStreak + 1 := by
      rw [h.config, h.quick]
      exact hRise
    have hRisen : ({ c.counted true with struggleStreak := 0 } : Controller σ).countQuickSuccess =
        { c.counted true with struggleStreak := 0, tier := c.tier.up, quickSuccessStreak := 0 } :=
      if_pos hRise'
    rw [hRisen, decide_eq_true hRise]
    refine draw rfl ?_ h.random_eq ⟨fun _ => rfl, fun _ => rfl⟩ ?_ ?_ h.config h.protocol
    · exact congrArg Tier.up h.tier
    · rw [quickHits_cons]
      rfl
    · rw [struggles_cons]
      rfl
  · have hRise' : ¬ c.config.quickSuccessesToUpgrade ≤ c.quickSuccessStreak + 1 := by
      rw [h.config, h.quick]
      exact hRise
    have hCounted : ({ c.counted true with struggleStreak := 0 } : Controller σ).countQuickSuccess =
        { c.counted true with struggleStreak := 0, quickSuccessStreak := c.quickSuccessStreak + 1 } :=
      if_neg hRise'
    rw [hCounted, decide_eq_false hRise]
    refine draw rfl h.tier h.random_eq ⟨fun _ => rfl, fun _ => rfl⟩ ?_ ?_ h.config h.protocol
    · rw [quickHits_cons]
      exact congrArg (· + 1) h.quick
    · rw [struggles_cons]
      rfl

theorem slowHit
    (hSlow : ¬ (c.counted true).attemptsOnTarget ≤ (c.counted true).params.quickSuccessThreshold) :
    Follows config protocol random (.slowHit :: marks) (c.counted true).onHit := by
  rw [onHit_of_slow hSlow]
  refine draw rfl h.tier h.random_eq ⟨fun _ => rfl, fun _ => rfl⟩ ?_ ?_ h.config h.protocol
  · rw [quickHits_cons]
    rfl
  · rw [struggles_cons]
    rfl

/-- A miss with many attempts counts, and may lower the tier. -/
theorem struggle_miss (hMany :
      (c.counted false).params.maxAttemptsBeforeStruggle ≤ (c.counted false).attemptsOnTarget)
    (hPhase : c.phase = .awaitingAttemptResult) :
    Follows config protocol random
      (.struggle (config.strugglesToDowngrade ≤ struggles marks + 1) :: marks)
      (c.counted false).onMiss := by
  have hSame : ¬ c.phase = .sendTarget := by
    rw [hPhase]
    exact nofun
  rw [onMiss, if_neg (Nat.not_lt.mpr hMany)]
  by_cases hFall : config.strugglesToDowngrade ≤ struggles marks + 1
  · have hFall' : c.config.strugglesToDowngrade ≤ c.struggleStreak + 1 := by
      rw [h.config, h.struggle]
      exact hFall
    have hFallen : ({ c.counted false with quickSuccessStreak := 0 } : Controller σ).countStruggle =
        { ({ c.counted false with quickSuccessStreak := 0, tier := c.tier.down, struggleStreak := 0 } :
          Controller σ).newTarget with phase := c.phase } := if_pos hFall'
    rw [hFallen, decide_eq_true hFall]
    refine draw rfl ?_ h.random_eq ⟨fun hSend => absurd hSend hSame, nofun⟩ ?_ ?_ h.config h.protocol
    · exact congrArg Tier.down h.tier
    · rw [quickHits_cons]
      rfl
    · rw [struggles_cons]
      rfl
  · have hFall' : ¬ c.config.strugglesToDowngrade ≤ c.struggleStreak + 1 := by
      rw [h.config, h.struggle]
      exact hFall
    have hCounted : ({ c.counted false with quickSuccessStreak := 0 } : Controller σ).countStruggle =
        { c.counted false with quickSuccessStreak := 0, struggleStreak := c.struggleStreak + 1 } :=
      if_neg hFall'
    rw [hCounted, decide_eq_false hFall]
    refine ⟨h.tier, ⟨fun hSend => absurd hSend hSame, nofun⟩, h.target, ?_, ?_, ?_, h.config,
      h.protocol⟩
    · rw [attempts_cons]
      exact h.tries_counted false
    · rw [quickHits_cons]
      rfl
    · rw [struggles_cons]
      exact congrArg (· + 1) h.struggle

theorem params_counted (success : Bool) :
    (c.counted success).params = config.levels.params (tierAfter config marks) := by
  show c.config.levels.params c.tier = _
  rw [h.config, h.tier]

/-- **A response keeps a controller in agreement with its marks.** -/
theorem respond (output : Option String) : Follows config protocol random
    (markNext config protocol random marks output :: marks) (c.respond output).2 := by
  have hTarget : c.target = (drawn config random marks).1 := congrArg Prod.fst h.target
  have hExpects : c.phase = .awaitingAttemptResult → ¬ awaitsSend marks = true := by
    intro hPhase hSend
    rw [h.phase.mpr hSend] at hPhase
    cases hPhase
  have hResponse := c.response output
  generalize c.respond output = answer at hResponse ⊢
  cases hResponse with
  | send hPhase =>
    rw [markNext, if_pos (h.phase.mp hPhase)]
    exact h.send
  | unusable hPhase hAttempt =>
    rw [h.protocol] at hAttempt
    rw [markNext, if_neg (hExpects hPhase), hAttempt]
    exact h.count (.inl rfl) hPhase
  | hit hPhase hAttempt =>
    rw [h.protocol, hTarget] at hAttempt
    rw [markNext, if_neg (hExpects hPhase), hAttempt]
    dsimp only
    rw [if_pos rfl, ← h.params_counted true, ← h.tries_counted true]
    split
    · rename_i hQuick
      exact h.quickHit hQuick
    · rename_i hSlow
      exact h.slowHit hSlow
  | miss hPhase hAttempt hWrong =>
    rw [h.protocol] at hAttempt
    rw [hTarget] at hWrong
    rw [markNext, if_neg (hExpects hPhase), hAttempt]
    dsimp only
    rw [if_neg hWrong, ← h.params_counted false, ← h.tries_counted false]
    split
    · rename_i hMany
      exact h.struggle_miss hMany hPhase
    · rename_i hFew
      have hStays : (c.counted false).onMiss = c.counted false := if_pos (Nat.lt_of_not_le hFew)
      rw [hStays]
      exact h.count (.inr rfl) hPhase

theorem respondAll (outputs : List (Option String)) : Follows config protocol random
    (outputs.foldl (fun marks output => markNext config protocol random marks output :: marks)
      marks) (Controller.respondAll outputs c) := by
  induction outputs generalizing marks c with
  | nil => exact h
  | cons output outputs ih => exact ih (h.respond output)

end Follows

/-- Outputs that are no attempts are counted as attempts, but never as struggles. -/
example : marksFor {} {} ([7, 3, 2] : List Nat)
    [some "7", none, none, some "8", some "x", some "9", some "1"] =
      [.struggle true, .struggle false, .unusable, .miss, .unusable, .sent, .quickHit false] := by
  decide

end Controller

end FactorMachine
