import FactorMachine.Config.Basic
import FactorMachine.Engine.Run
import FactorMachine.Random.Source
import FactorMachine.Text.Numeral
import FactorMachine.Trainer.Monitor

/-!
# FactorMachine — the difficulty controller

The controller sits at the other end of a goal-seeker's input. It holds a target, judges the
attempts that the program prints, and after a hit sends the next target. Several quick hits
in a row raise the tier, and with it the range of targets; several struggles lower it.

* After a hit there is always a new target, which the next response sends.
* After a fall to a lower tier there is a new target too, but the program is on its failure
  path and does not ask for one; the new target is simply judged against from then on.
* An output that is no attempt counts as a failed one and changes nothing else.

The attempts at a target are counted in 32 bits, as a monitor counts them. A streak ends as soon as
it reaches a threshold of this width, so there is always room to count it on.
-/

namespace FactorMachine

/-- What the next response is for. -/
inductive InteractionPhase where
  | sendTarget
  | awaitingAttemptResult
  deriving DecidableEq, Repr

def InteractionPhase.name : InteractionPhase → String
  | .sendTarget => "SendTarget"
  | .awaitingAttemptResult => "AwaitingAttemptResult"

structure Controller (σ : Type) where
  config : ControllerConfig
  protocol : ProtocolConfig
  tier : Tier
  phase : InteractionPhase
  target : Nat
  /-- The count of the attempts since the target was drawn. -/
  attemptsOnTarget : Nat
  quickSuccessStreak : Nat
  struggleStreak : Nat
  monitor : Monitor
  random : σ
  deriving DecidableEq, Repr

/-- What a controller shows of itself. -/
structure ControllerSnapshot where
  tier : Tier
  attemptsOnTarget : Nat
  quickSuccessStreak : Nat
  struggleStreak : Nat
  target : Nat
  phase : InteractionPhase
  deriving DecidableEq, Repr

/-- The attempt that a printed text stands for. The stuck signal is none, and neither is a
text that is no word. -/
def attemptOf? (protocol : ProtocolConfig) (output : Option String) : Option Word :=
  match output with
  | none => none
  | some text =>
    if text = toString protocol.stuckSignal then none
    else Text.integer? Word.bound text.toList

namespace Controller

variable {σ : Type} [RandomSource σ]

/-- A random target of a tier. -/
def drawTarget (config : ControllerConfig) (tier : Tier) (random : σ) : Nat × σ :=
  RandomSource.draw 64 ((config.levels.params tier).rangeMax + 1) random

/-- A controller that waits for an attempt at its first target. -/
def start (config : ControllerConfig) (protocol : ProtocolConfig) (random : σ) :
    Controller σ :=
  let (target, random) := drawTarget config config.startingTier random
  { config
    protocol
    tier := config.startingTier
    phase := .awaitingAttemptResult
    target
    attemptsOnTarget := 0
    quickSuccessStreak := 0
    struggleStreak := 0
    monitor := .empty
    random }

/-- The controller of a program that was rebuilt: its first output is an attempt at the
current target, whatever was expected before. -/
def expectAttempt (c : Controller σ) : Controller σ :=
  { c with phase := .awaitingAttemptResult }

def params (c : Controller σ) : TierParams := c.config.levels.params c.tier

def snapshot (c : Controller σ) : ControllerSnapshot :=
  { tier := c.tier
    attemptsOnTarget := c.attemptsOnTarget
    quickSuccessStreak := c.quickSuccessStreak
    struggleStreak := c.struggleStreak
    target := c.target
    phase := c.phase }

/-- Draws a target of the current tier. -/
def newTarget (c : Controller σ) : Controller σ :=
  let (target, random) := drawTarget c.config c.tier c.random
  { c with target, random, attemptsOnTarget := 0 }

/-- Counts a quick hit, and rises when there have been enough in a row. -/
def countQuickSuccess (c : Controller σ) : Controller σ :=
  if c.config.quickSuccessesToUpgrade ≤ c.quickSuccessStreak + 1 then
    { c with tier := c.tier.up, quickSuccessStreak := 0 }
  else { c with quickSuccessStreak := c.quickSuccessStreak + 1 }

/-- What follows a hit. -/
def onHit (c : Controller σ) : Controller σ :=
  let c := { c with struggleStreak := 0 }
  let c :=
    if c.attemptsOnTarget ≤ c.params.quickSuccessThreshold then c.countQuickSuccess
    else { c with quickSuccessStreak := 0 }
  { c.newTarget with phase := .sendTarget }

/-- Counts a struggle, and falls when there have been enough in a row. -/
def countStruggle (c : Controller σ) : Controller σ :=
  if c.config.strugglesToDowngrade ≤ c.struggleStreak + 1 then
    newTarget { c with tier := c.tier.down, struggleStreak := 0 }
  else { c with struggleStreak := c.struggleStreak + 1 }

/-- What follows a miss. -/
def onMiss (c : Controller σ) : Controller σ :=
  if c.attemptsOnTarget < c.params.maxAttemptsBeforeStruggle then c
  else { c with quickSuccessStreak := 0 }.countStruggle

/-- Judges the latest output and gives the feedback on it. -/
def judge (c : Controller σ) (output : Option String) : Word × Controller σ :=
  let c := { c with attemptsOnTarget := nextCount c.attemptsOnTarget }
  match attemptOf? c.protocol output with
  | none => (c.protocol.failureFeedback, { c with monitor := c.monitor.record false })
  | some attempt =>
    if attempt = c.target then
      (c.protocol.successFeedback, { c with monitor := c.monitor.record true }.onHit)
    else (c.protocol.failureFeedback, { c with monitor := c.monitor.record false }.onMiss)

/-- The word for a program that waits for input. -/
def respond (c : Controller σ) (output : Option String) : Word × Controller σ :=
  match c.phase with
  | .sendTarget => (c.target, { c with phase := .awaitingAttemptResult })
  | .awaitingAttemptResult => c.judge output

/-- A controller always has an answer. -/
instance : InputSource (Controller σ) where
  nextInput output c :=
    let (v, c) := c.respond output
    (some v, c)

end Controller

end FactorMachine
