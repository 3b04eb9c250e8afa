import FactorMachine.Config.Validation
import Mathlib.Tactic.Common

/-!
# FactorMachine — what a valid configuration has

Validation looks for problems one after another. A configuration passes exactly if it is
`Consistent`.

## Results

* `validate_eq_ok_iff` — the configurations that pass.
-/

namespace FactorMachine.Config

/-- Program and controller can work together. -/
structure Consistent (c : Config) : Prop where
  slots : 0 < c.seeker.slotCount
  modulus : 2 ≤ c.seeker.attemptModulus
  offset : 0 < c.seeker.randomOffsetBound
  marker : c.seeker.attemptModulus ≤ c.seeker.frameMarker
  feedback : c.protocol.successFeedback ≠ c.protocol.failureFeedback
  stuckSignal : c.seeker.attemptModulus ≤ c.protocol.stuckSignal
  targets : ∀ tier, (c.controller.levels.params tier).rangeMax < c.seeker.attemptModulus
  depth : c.seeker.slotCount + 8 ≤ c.engine.maxStackDepth

theorem unreachableTier?_eq_none_iff {c : Config} : c.unreachableTier? = none ↔
    ∀ tier, (c.controller.levels.params tier).rangeMax < c.seeker.attemptModulus := by
  unfold unreachableTier?
  rw [List.find?_eq_none]
  constructor
  · intro h tier
    have hAll : tier ∈ Tier.all := by cases tier <;> decide
    have hTier := h tier hAll
    rw [decide_eq_true_eq] at hTier
    exact Nat.not_le.mp hTier
  · intro h tier _
    rw [decide_eq_true_eq]
    exact Nat.not_le.mpr (h tier)

theorem problem?_eq_none_iff {c : Config} : c.problem? = none ↔ c.Consistent := by
  constructor
  · intro h
    unfold problem? at h
    split at h
    · cases h
    split at h
    · cases h
    split at h
    · cases h
    split at h
    · cases h
    split at h
    · cases h
    split at h
    · cases h
    split at h
    · cases h
    rename_i hTier
    split at h
    · cases h
    exact ⟨by omega, by omega, by omega, by omega, by assumption, by omega,
      unreachableTier?_eq_none_iff.mp hTier, by omega⟩
  · intro h
    obtain ⟨hSlots, hModulus, hOffset, hMarker, hFeedback, hStuck, hTargets, hDepth⟩ := h
    unfold problem?
    rw [if_neg (by omega), if_neg (by omega), if_neg (by omega), if_neg (by omega),
      if_neg hFeedback, if_neg (by omega), unreachableTier?_eq_none_iff.mpr hTargets]
    exact if_neg (by omega)

/-- A configuration passes exactly if it is consistent. -/
theorem validate_eq_ok_iff {c : Config} : c.validate = .ok () ↔ c.Consistent := by
  rw [← problem?_eq_none_iff]
  unfold validate
  cases c.problem? with
  | none => exact ⟨fun _ => rfl, fun _ => rfl⟩
  | some problem =>
    constructor
    · intro h
      cases h
    · intro h
      cases h

end FactorMachine.Config
