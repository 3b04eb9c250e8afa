import FactorMachine.Config.Validation
import FactorMachine.Json.Reader

/-!
# FactorMachine — configurations as JSON

A configuration is read from an object, or from an array with the fields in order; what is
not said keeps its default, and what is not known is passed over. Only the parameters of a
tier have to be complete.
-/

namespace FactorMachine

open Json

/-- A seed, or the word that there is none. -/
def readSeed : Json → Option (Option Nat)
  | .null => some none
  | value => some <$> natural? countBound value

/-- A tier by its name. -/
def Tier.ofJson? (value : Json) : Option Tier := (caseName? value).bind Tier.ofKey?

def EngineConfig.ofJson? (value : Json) : Option EngineConfig := do
  let absent : EngineConfig := {}
  match ← fields? ["max_stack_depth", "history_limit", "seed"] value with
  | [depth, history, seed] =>
    return {
      maxStackDepth := ← field? (natural? countBound) absent.maxStackDepth depth
      historyLimit := ← field? (natural? countBound) absent.historyLimit history
      seed := ← field? readSeed absent.seed seed }
  | _ => none

def ProtocolConfig.ofJson? (value : Json) : Option ProtocolConfig := do
  let absent : ProtocolConfig := {}
  match ← fields? ["success_feedback", "failure_feedback", "stuck_signal"] value with
  | [success, failure, stuck] =>
    return {
      successFeedback := ← field? (natural? countBound) absent.successFeedback success
      failureFeedback := ← field? (natural? countBound) absent.failureFeedback failure
      stuckSignal := ← field? (natural? countBound) absent.stuckSignal stuck }
  | _ => none

/-- The names of a goal-seeker's fields. -/
def SeekerConfig.fieldNames : List String :=
  ["slot_count", "attempt_modulus", "attempt_increment", "random_offset_bound",
   "max_failures_before_stuck", "frame_marker", "slot_history_limit",
   "modification_history_limit"]

def SeekerConfig.ofJson? (value : Json) : Option SeekerConfig := do
  let absent : SeekerConfig := {}
  let count := field? (natural? countBound)
  match ← fields? SeekerConfig.fieldNames value with
  | [slots, modulus, increment, offset, failures, marker, slotHistory, modifications] =>
    return {
      slotCount := ← count absent.slotCount slots
      attemptModulus := ← count absent.attemptModulus modulus
      attemptIncrement := ← count absent.attemptIncrement increment
      randomOffsetBound := ← count absent.randomOffsetBound offset
      maxFailuresBeforeStuck := ← count absent.maxFailuresBeforeStuck failures
      frameMarker := ← count absent.frameMarker marker
      slotHistoryLimit := ← count absent.slotHistoryLimit slotHistory
      modificationHistoryLimit := ← count absent.modificationHistoryLimit modifications }
  | _ => none

def TierParams.ofJson? (value : Json) : Option TierParams := do
  match ← fields? ["range_max", "max_attempts_before_struggle", "quick_success_threshold"]
      value with
  | [some rangeMax, some struggle, some quick] =>
    return {
      rangeMax := ← natural? countBound rangeMax
      maxAttemptsBeforeStruggle := ← natural? streakBound struggle
      quickSuccessThreshold := ← natural? streakBound quick }
  | _ => none

def DifficultyLevels.ofJson? (value : Json) : Option DifficultyLevels := do
  let absent : DifficultyLevels := {}
  match ← fields? ["easy", "medium", "hard"] value with
  | [easy, medium, hard] =>
    return {
      easy := ← field? TierParams.ofJson? absent.easy easy
      medium := ← field? TierParams.ofJson? absent.medium medium
      hard := ← field? TierParams.ofJson? absent.hard hard }
  | _ => none

/-- The names of a controller's fields. -/
def ControllerConfig.fieldNames : List String :=
  ["levels", "starting_tier", "quick_successes_to_upgrade", "struggles_to_downgrade", "seed"]

def ControllerConfig.ofJson? (value : Json) : Option ControllerConfig := do
  let absent : ControllerConfig := {}
  let streak := field? (natural? streakBound)
  match ← fields? ControllerConfig.fieldNames value with
  | [levels, tier, quick, struggles, seed] =>
    return {
      levels := ← field? DifficultyLevels.ofJson? absent.levels levels
      startingTier := ← field? Tier.ofJson? absent.startingTier tier
      quickSuccessesToUpgrade := ← streak absent.quickSuccessesToUpgrade quick
      strugglesToDowngrade := ← streak absent.strugglesToDowngrade struggles
      seed := ← field? readSeed absent.seed seed }
  | _ => none

def SessionConfig.ofJson? (value : Json) : Option SessionConfig := do
  let absent : SessionConfig := {}
  match ← fields? ["max_steps_per_cycle", "max_restarts"] value with
  | [steps, restarts] =>
    return {
      maxStepsPerCycle := ← field? (natural? countBound) absent.maxStepsPerCycle steps
      maxRestarts := ← field? (natural? countBound) absent.maxRestarts restarts }
  | _ => none

namespace Config

def ofJson? (value : Json) : Option Config := do
  let absent : Config := {}
  match ← fields? ["vm", "protocol", "assembler", "controller", "session"] value with
  | [engine, protocol, seeker, controller, session] =>
    return {
      engine := ← field? EngineConfig.ofJson? absent.engine engine
      protocol := ← field? ProtocolConfig.ofJson? absent.protocol protocol
      seeker := ← field? SeekerConfig.ofJson? absent.seeker seeker
      controller := ← field? ControllerConfig.ofJson? absent.controller controller
      session := ← field? SessionConfig.ofJson? absent.session session }
  | _ => none

/-- The configuration that bytes describe, valid or not. -/
def parse (bytes : List UInt8) : Except ConfigError Config :=
  match (Json.ofBytes? bytes).bind ofJson? with
  | some c => .ok c
  | none => .error .malformed

/-- The valid configuration that bytes describe. -/
def read (bytes : List UInt8) : Except ConfigError Config :=
  match parse bytes with
  | .error e => .error e
  | .ok c =>
    match c.validate with
    | .ok () => .ok c
    | .error e => .error e

/-- The valid configuration in a file; `none` stands for an absent file. -/
def load (content : Option ByteArray) : Except ConfigError Config :=
  match content with
  | some bytes => read bytes.data.toList
  | none => .error .unreadable

end Config

end FactorMachine
