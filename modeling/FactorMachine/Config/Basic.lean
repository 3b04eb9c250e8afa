import FactorMachine.Trainer.Tier

/-!
# FactorMachine — configuration

Everything that can be set from outside, with the value that stands where nothing is said.
-/

namespace FactorMachine

/-- Counts, values and seeds are below this number. -/
def countBound : Nat := Nat.pow 2 64

/-- Attempts and streaks are below this number. -/
def streakBound : Nat := Nat.pow 2 32

structure EngineConfig where
  /-- The limit of the operand stack and of the call stack. -/
  maxStackDepth : Nat := 4096
  historyLimit : Nat := 4096
  /-- The seed of the random numbers that the program draws. -/
  seed : Option Nat := none
  deriving DecidableEq, Repr

/-- The values that program and controller exchange. -/
structure ProtocolConfig where
  successFeedback : Nat := 1
  failureFeedback : Nat := 0
  stuckSignal : Nat := 99
  deriving DecidableEq, Repr

/-- The shape and the constants of a goal-seeker. -/
structure SeekerConfig where
  slotCount : Nat := 2
  /-- Attempts are below this number. -/
  attemptModulus : Nat := 16
  /-- What a failed attempt is raised by, beside a random offset. -/
  attemptIncrement : Nat := 1
  randomOffsetBound : Nat := 3
  maxFailuresBeforeStuck : Nat := 3
  /-- The word that marks the bottom of the operand stack; no attempt may equal it. -/
  frameMarker : Nat := 97
  slotHistoryLimit : Nat := 10
  modificationHistoryLimit : Nat := 20
  deriving DecidableEq, Repr

/-- What a tier demands. -/
structure TierParams where
  /-- The greatest target. -/
  rangeMax : Nat
  /-- A miss with this many attempts on the target is a struggle. -/
  maxAttemptsBeforeStruggle : Nat
  /-- A hit with at most this many attempts on the target is quick. -/
  quickSuccessThreshold : Nat
  deriving DecidableEq, Repr

structure DifficultyLevels where
  easy : TierParams := ⟨4, 5, 1⟩
  medium : TierParams := ⟨9, 4, 1⟩
  hard : TierParams := ⟨14, 3, 2⟩
  deriving DecidableEq, Repr

def DifficultyLevels.params (levels : DifficultyLevels) : Tier → TierParams
  | .easy => levels.easy
  | .medium => levels.medium
  | .hard => levels.hard

structure ControllerConfig where
  levels : DifficultyLevels := {}
  startingTier : Tier := .medium
  quickSuccessesToUpgrade : Nat := 3
  strugglesToDowngrade : Nat := 2
  /-- The seed of the targets. -/
  seed : Option Nat := none
  deriving DecidableEq, Repr

structure SessionConfig where
  /-- The most steps from one wait for input to the next. -/
  maxStepsPerCycle : Nat := 10000
  maxRestarts : Nat := 3
  deriving DecidableEq, Repr

structure Config where
  engine : EngineConfig := {}
  protocol : ProtocolConfig := {}
  seeker : SeekerConfig := {}
  controller : ControllerConfig := {}
  session : SessionConfig := {}
  deriving DecidableEq, Repr

namespace Config

/-- Sets both seeds at once. The controller's is the next number below the bound. -/
def withSeed (c : Config) (seed : Nat) : Config :=
  { c with
    engine := { c.engine with seed := some seed }
    controller := { c.controller with seed := some ((seed + 1) % countBound) } }

/-- Sets the seeds that are not set yet. -/
def withMissingSeeds (c : Config) (engineSeed controllerSeed : Nat) : Config :=
  { c with
    engine := { c.engine with seed := c.engine.seed <|> some engineSeed }
    controller := { c.controller with seed := c.controller.seed <|> some controllerSeed } }

end Config

end FactorMachine
