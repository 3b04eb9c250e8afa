import FactorMachine.Config.Basic

/-!
# FactorMachine — valid configurations

`Config.validate` refuses configurations under which program and controller could not work
together. It reports the first problem in a fixed order.
-/

namespace FactorMachine

/-- What is wrong with a configuration. -/
inductive ConfigProblem where
  | noSlots
  | smallModulus
  | noRandomOffset
  | markerBelowModulus (marker modulus : Nat)
  | equalFeedback
  | stuckSignalInRange
  | unreachableTarget (tier : Tier) (rangeMax modulus : Nat)
  | shallowStack
  deriving DecidableEq, Repr

def ConfigProblem.message : ConfigProblem → String
  | .noSlots => "slot_count must be at least 1"
  | .smallModulus => "attempt_modulus must be at least 2"
  | .noRandomOffset => "random_offset_bound must be at least 1"
  | .markerBelowModulus marker modulus =>
    s!"frame_marker {marker} must not be below attempt_modulus {modulus}"
  | .equalFeedback => "success and failure feedback must differ"
  | .stuckSignalInRange => "stuck_signal must lie outside the attempt range"
  | .unreachableTarget tier rangeMax modulus =>
    s!"{tier.name} range_max {rangeMax} is unreachable with attempt_modulus {modulus}"
  | .shallowStack => "max_stack_depth too small for the goal-seeker frame"

/-- Why there is no configuration to work with. -/
inductive ConfigError where
  /-- There is no such file. -/
  | unreadable
  /-- The text does not describe a configuration. -/
  | malformed
  | invalid (problem : ConfigProblem)
  deriving DecidableEq, Repr

def ConfigError.message : ConfigError → String
  | .unreadable => "cannot read config"
  | .malformed => "malformed config"
  | .invalid problem => s!"invalid config: {problem.message}"

namespace Config

/-- The lowest tier with a target that is no attempt. -/
def unreachableTier? (c : Config) : Option Tier :=
  Tier.all.find? fun tier =>
    c.seeker.attemptModulus ≤ (c.controller.levels.params tier).rangeMax

/-- The first problem of a configuration. -/
def problem? (c : Config) : Option ConfigProblem :=
  if c.seeker.slotCount = 0 then some .noSlots
  else if c.seeker.attemptModulus < 2 then some .smallModulus
  else if c.seeker.randomOffsetBound = 0 then some .noRandomOffset
  else if c.seeker.frameMarker < c.seeker.attemptModulus then
    some (.markerBelowModulus c.seeker.frameMarker c.seeker.attemptModulus)
  else if c.protocol.successFeedback = c.protocol.failureFeedback then some .equalFeedback
  else if c.protocol.stuckSignal < c.seeker.attemptModulus then some .stuckSignalInRange
  else match c.unreachableTier? with
    | some tier =>
      let rangeMax := (c.controller.levels.params tier).rangeMax
      some (.unreachableTarget tier rangeMax c.seeker.attemptModulus)
    | none =>
      if c.engine.maxStackDepth < c.seeker.slotCount + 8 then some .shallowStack else none

def validate (c : Config) : Except ConfigError Unit :=
  match c.problem? with
  | none => .ok ()
  | some problem => .error (.invalid problem)

end Config

end FactorMachine
