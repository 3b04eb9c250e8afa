import FactorMachine.Proofs.Trainer.Marks
import Mathlib.Logic.Function.Iterate

/-!
# FactorMachine — outputs that are no attempts

A controller that expects an attempt may be shown something else: nothing at all, the stuck signal,
or a text that is no word. It answers as it answers a miss, and counts an attempt. But it is done
with such an output before it looks at how many attempts there have been. A miss that comes after
too many of them is a struggle, which may lower the tier; an output that is no attempt never is.

So the two lead to the same controller exactly as long as a miss would not be a struggle, and a
program that prints no attempts at all keeps its target and its tier for good. It goes on being
counted, and the count begins again at zero after the greatest number that it can hold.

## Results

* `attemptOf?_eq_none_iff` — which outputs are no attempts.
* `alike_onMiss_iff`       — when a miss is counted and nothing else.
* `respondAll_unusable`    — a row of outputs that are no attempts only counts.
* `unusable_as_missed_iff` — when such an output is as good as a miss.
-/

namespace FactorMachine

/-- The outputs that cannot be judged as attempts. -/
inductive Unusable (protocol : ProtocolConfig) : Option String → Prop
  | missing : Unusable protocol none
  | stuck : Unusable protocol (some (toString protocol.stuckSignal))
  | noWord {text : String} (h : Text.integer? Word.bound text.toList = none) :
      Unusable protocol (some text)

/-- The outputs that cannot be judged are those that stand for no attempt. -/
theorem attemptOf?_eq_none_iff {protocol : ProtocolConfig} {output : Option String} :
    attemptOf? protocol output = none ↔ Unusable protocol output := by
  constructor
  · intro hNone
    cases output with
    | none => exact .missing
    | some text =>
      by_cases hStuck : text = toString protocol.stuckSignal
      · rw [hStuck]
        exact .stuck
      · refine .noWord ?_
        rw [attemptOf?, if_neg hStuck] at hNone
        exact hNone
  · intro hUnusable
    cases hUnusable with
    | missing => rfl
    | stuck => exact if_pos rfl
    | noWord h =>
      rw [attemptOf?, h]
      exact ite_self none

namespace Controller

variable {σ : Type}

/-- A text that is a word, but neither the stuck signal nor the target. -/
structure Missed (c : Controller σ) (text : String) (attempt : Word) : Prop where
  word : Text.integer? Word.bound text.toList = some attempt
  signal : text ≠ toString c.protocol.stuckSignal
  wrong : attempt ≠ c.target

/-- Nothing that two controllers show, have counted or will draw tells them apart. -/
structure Alike (c c' : Controller σ) : Prop where
  snapshot : c.snapshot = c'.snapshot
  monitor : c.monitor = c'.monitor
  random : c.random = c'.random

/-- So many more attempts have been counted, none of them a success, and nothing has followed from
them. -/
def countedFailures (c : Controller σ) (n : Nat) : Controller σ := (·.counted false)^[n] c

/-- Nothing but the attempts shows that they have been counted. -/
theorem countedFailures_shows (c : Controller σ) (n : Nat) :
    (c.countedFailures n).snapshot =
      { c.snapshot with attemptsOnTarget := nextCount^[n] c.attemptsOnTarget } ∧
    (c.countedFailures n).random = c.random := by
  induction n generalizing c with
  | zero => exact ⟨rfl, rfl⟩
  | succ n ih => exact ih (c.counted false)

variable [RandomSource σ] {c : Controller σ} {output : Option String}

theorem respond_unusable (hPhase : c.phase = .awaitingAttemptResult)
    (hUnusable : Unusable c.protocol output) :
    c.respond output = ((c.protocol.failureFeedback : Word), c.counted false) := by
  have hNone := attemptOf?_eq_none_iff.mpr hUnusable
  have hResponse := c.response output
  generalize c.respond output = answer at hResponse ⊢
  cases hResponse with
  | send hSend => exact absurd (hPhase.symm.trans hSend) nofun
  | unusable => rfl
  | hit _ hAttempt => exact absurd (hNone.symm.trans hAttempt) nofun
  | miss _ hAttempt => exact absurd (hNone.symm.trans hAttempt) nofun

theorem respond_missed {text : String} {attempt : Word}
    (hPhase : c.phase = .awaitingAttemptResult) (hMissed : c.Missed text attempt) :
    c.respond (some text) = ((c.protocol.failureFeedback : Word), (c.counted false).onMiss) := by
  have hAttempt : attemptOf? c.protocol (some text) = some attempt := by
    rw [attemptOf?, if_neg hMissed.signal]
    exact hMissed.word
  have hResponse := c.response (some text)
  generalize c.respond (some text) = answer at hResponse ⊢
  cases hResponse with
  | send hSend => exact absurd (hPhase.symm.trans hSend) nofun
  | unusable _ hNone => exact absurd (hNone.symm.trans hAttempt) nofun
  | hit _ hHit =>
    rw [hAttempt, Option.some.injEq] at hHit
    exact absurd hHit hMissed.wrong
  | miss => rfl

/-- A miss is counted and nothing else exactly while it is no struggle. -/
theorem alike_onMiss_iff (hTried : 0 < c.attemptsOnTarget) :
    c.Alike c.onMiss ↔ c.attemptsOnTarget < c.params.maxAttemptsBeforeStruggle := by
  constructor
  · intro hAlike
    by_contra hMany
    have hShown := hAlike.snapshot
    rw [onMiss, if_neg hMany, countStruggle] at hShown
    split at hShown
    · -- after a fall the attempts are counted from zero
      have hTries : c.attemptsOnTarget = 0 :=
        congrArg ControllerSnapshot.attemptsOnTarget hShown
      exact absurd hTries (Nat.ne_of_gt hTried)
    · have hStreak : c.struggleStreak = c.struggleStreak + 1 :=
        congrArg ControllerSnapshot.struggleStreak hShown
      exact absurd hStreak (Nat.ne_of_lt (Nat.lt_succ_self _))
  · intro hFew
    rw [onMiss, if_pos hFew]
    exact ⟨rfl, rfl, rfl⟩

/-- Outputs that are no attempts are counted, however many there are, and nothing follows from
them. -/
theorem respondAll_unusable {outputs : List (Option String)}
    (hPhase : c.phase = .awaitingAttemptResult)
    (hUnusable : ∀ output ∈ outputs, Unusable c.protocol output) :
    respondAll outputs c = c.countedFailures outputs.length := by
  induction outputs generalizing c with
  | nil => rfl
  | cons output outputs ih =>
    obtain ⟨hFirst, hRest⟩ := List.forall_mem_cons.mp hUnusable
    have hCounted : (c.respond output).2 = c.counted false :=
      congrArg Prod.snd (respond_unusable hPhase hFirst)
    have hRow : respondAll outputs (c.counted false) =
        (c.counted false).countedFailures outputs.length := ih hPhase hRest
    rw [respondAll, List.foldl_cons, hCounted]
    exact hRow

/-- **An output that is no attempt is not always as good as a miss.** Where an attempt is expected,
both are answered with the feedback for a failure. While there is room to count another attempt, they
lead to controllers that are alike if and only if the miss would not yet be a struggle. The output
that is no attempt is only counted: after any row of such outputs, tier, target, streaks and source
are as they were before. -/
theorem unusable_as_missed_iff {text : String} {attempt : Word}
    (hPhase : c.phase = .awaitingAttemptResult) (hUnusable : Unusable c.protocol output)
    (hMissed : c.Missed text attempt) :
    (c.respond output).1 = c.protocol.failureFeedback ∧
    (c.respond (some text)).1 = c.protocol.failureFeedback ∧
    (c.attemptsOnTarget + 1 < streakBound →
      ((c.respond output).2.Alike (c.respond (some text)).2 ↔
        c.attemptsOnTarget + 1 < c.params.maxAttemptsBeforeStruggle)) ∧
    ∀ outputs : List (Option String), (∀ output ∈ outputs, Unusable c.protocol output) →
      (respondAll outputs c).snapshot =
        { c.snapshot with attemptsOnTarget := nextCount^[outputs.length] c.attemptsOnTarget } ∧
      (respondAll outputs c).random = c.random := by
  rw [respond_unusable hPhase hUnusable, respond_missed hPhase hMissed]
  refine ⟨rfl, rfl, fun hRoom => ?_, fun outputs hRow => ?_⟩
  · have hCounted : (c.counted false).attemptsOnTarget = c.attemptsOnTarget + 1 :=
      nextCount_of_room hRoom
    rw [← hCounted]
    exact (c.counted false).alike_onMiss_iff (hCounted ▸ Nat.succ_pos _)
  · rw [respondAll_unusable hPhase hRow]
    exact c.countedFailures_shows outputs.length

/-- The fourth attempt on a target of the middle tier is a struggle if it is a miss, but not if it is
the stuck signal; and ten of these in a row are only counted. -/
theorem unusable_as_missed_fourth :
    ∃ c : Controller (List Nat), c = respondAll [none, some "seven", some "99"] (start {} {} [7]) ∧
      (c.respond (some "99")).1 = 0 ∧ (c.respond (some "8")).1 = 0 ∧
      ¬ (c.respond (some "99")).2.Alike (c.respond (some "8")).2 ∧
      (c.respond (some "8")).2.struggleStreak = 1 ∧
      (respondAll (List.replicate 10 (some "99")) c).snapshot =
        { c.snapshot with attemptsOnTarget := 13 } := by
  refine ⟨_, rfl, ?_⟩
  have hMissed : (respondAll [none, some "seven", some "99"]
      (start {} {} [7] : Controller (List Nat))).Missed "8" 8 :=
    ⟨by decide, by decide, by decide⟩
  obtain ⟨hUnusable, hMiss, hAlike, hRow⟩ :=
    unusable_as_missed_iff (by decide) .stuck hMissed
  refine ⟨hUnusable, hMiss, fun h => absurd ((hAlike (by decide)).mp h) (by decide), by decide, ?_⟩
  exact (hRow _ fun output hMem => by
    rw [List.eq_of_mem_replicate hMem]
    exact .stuck).1

end Controller

end FactorMachine
