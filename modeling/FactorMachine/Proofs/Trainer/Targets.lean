import FactorMachine.Proofs.Trainer.Accounting
import Mathlib.Data.Finset.Card

/-!
# FactorMachine — the targets that were tried

A monitor is told of attempts and not of targets, and its rate of success is taken over the targets
that it can make out: each success is one, and attempts after the latest success are one more. This
is right as long as a target is left only by a success. But a fall to a lower tier draws a target as
well, and then the attempts at the target that was given up count towards the next success, as if
they had been attempts at the target that was solved.

To compare, targets are numbered as they are drawn, and a judged output belongs to the target on
hand. Every target that is left has been tried, be it by the hit or by the miss that ended it. So
the numbers of those that were tried have no gaps, and what the monitor misses is told by the marks:
a target for each fall, as soon as there is another response. This is so as long as the attempts
since the latest hit have room in their count, which shows none of them when it begins again at
zero.

## Results

* `triedTargets_eq`            — the numbers of the targets that were tried.
* `Follows.verdict_eq`         — the mark of a response holds its verdict.
* `tallies_marks`              — a monitor in terms of the marks.
* `triedTargets_beside_monitor` — the targets that were tried, beside those that a rate is taken over.
-/

namespace FactorMachine

namespace Mark

/-- The response gave a target up. -/
def isFall : Mark → Bool
  | struggle true => true
  | _ => false

/-- What the response says of the output, if it judged one. -/
def verdict : Mark → Option Bool
  | sent => none
  | quickHit _ | slowHit => some true
  | unusable | miss | struggle _ => some false

/-- Only an output that was judged leads to a new target. -/
theorem isJudged_of_draws {m : Mark} (h : m.draws = true) : m.isJudged = true := by
  cases m with
  | sent => cases h
  | _ => rfl

/-- A target is left by a hit or given up. -/
theorem countP_draws (marks : List Mark) :
    marks.countP draws = marks.countP isHit + marks.countP isFall := by
  induction marks with
  | nil => rfl
  | cons m marks ih =>
    have hOne : (if m.draws then 1 else 0) =
        (if m.isHit then 1 else 0) + (if m.isFall then 1 else 0) := by
      cases m with
      | struggle downgrade => cases downgrade <;> rfl
      | _ => rfl
    rw [List.countP_cons, List.countP_cons, List.countP_cons, ih, hOne]
    omega

/-- The successes among the verdicts are the hits. -/
theorem count_verdicts (marks : List Mark) :
    (marks.filterMap verdict).count true = marks.countP isHit := by
  induction marks with
  | nil => rfl
  | cons m marks ih =>
    rw [List.filterMap_cons, List.countP_cons, ← ih]
    cases m with
    | sent => rfl
    | quickHit _ | slowHit => exact List.count_cons_self
    | unusable | miss | struggle _ => exact List.count_cons_of_ne (by decide)

end Mark

namespace Monitor

/-- The attempts after the latest success count as one more target if the latest attempt was not a
success itself, as long as there is room to count them. -/
theorem Tallies.targetsSeen_eq {outcomes : List Bool} {m : Monitor} (h : Tallies outcomes m)
    (hRoom : sinceSuccess outcomes < streakBound) :
    m.targetsSeen = outcomes.count true + if outcomes.head? = some false then 1 else 0 := by
  rw [targetsSeen, h.attemptsPerSuccess, List.length_map, length_spells, h.openAttempts,
    Nat.mod_eq_of_lt hRoom]
  cases outcomes with
  | nil => rfl
  | cons success earlier => cases success <;> rfl

end Monitor

namespace Controller

-- ---------------------------------------------------------------------------
-- Targets by number
-- ---------------------------------------------------------------------------

-- The marks are listed latest first.

/-- The targets that outputs were judged against, one for each of these outputs. The first target
has number zero, and the numbers go up with every draw. -/
def judgedTargets : List Mark → List Nat
  | [] => []
  | m :: earlier =>
    if m.isJudged then earlier.countP Mark.draws :: judgedTargets earlier
    else judgedTargets earlier

/-- The targets that at least one output was judged against. -/
def triedTargets (marks : List Mark) : Finset Nat := (judgedTargets marks).toFinset

theorem triedTargets_cons (m : Mark) (earlier : List Mark) : triedTargets (m :: earlier) =
    if m.isJudged then insert (earlier.countP Mark.draws) (triedTargets earlier)
    else triedTargets earlier := by
  unfold triedTargets
  rw [judgedTargets]
  split
  · exact List.toFinset_cons
  · rfl

/-- Every target that was left has been tried, and the one on hand if there were attempts at it. -/
theorem triedTargets_eq (marks : List Mark) : triedTargets marks =
    Finset.range (marks.countP Mark.draws + if 0 < attempts marks then 1 else 0) := by
  induction marks with
  | nil => rfl
  | cons m earlier ih =>
    have hNext : insert (earlier.countP Mark.draws) (Finset.range (earlier.countP Mark.draws +
        if 0 < attempts earlier then 1 else 0)) =
          Finset.range (earlier.countP Mark.draws + 1) := by
      split
      · exact Finset.insert_eq_of_mem (Finset.mem_range.mpr (Nat.lt_succ_self _))
      · exact Finset.range_add_one.symm
    rw [triedTargets_cons, ih, attempts_cons, List.countP_cons]
    by_cases hDraws : m.draws = true
    · rw [if_pos (Mark.isJudged_of_draws hDraws), hNext, if_pos hDraws, if_pos hDraws,
        if_neg (Nat.lt_irrefl 0), Nat.add_zero]
    · rw [if_neg hDraws, if_neg hDraws, Nat.add_zero]
      by_cases hJudged : m.isJudged = true
      · rw [if_pos hJudged, hNext, if_pos hJudged, if_pos (Nat.succ_pos _)]
      · rw [if_neg hJudged, if_neg hJudged, Nat.add_zero]

-- ---------------------------------------------------------------------------
-- Beside the monitor
-- ---------------------------------------------------------------------------

/-- A target is sent only after a hit, and then it has not been tried. -/
theorem attempts_of_awaitsSend {marks : List Mark} (h : awaitsSend marks = true) :
    attempts marks = 0 ∧ (marks.filterMap Mark.verdict).head? = some true := by
  cases marks with
  | nil => cases h
  | cons m earlier =>
    cases m with
    | quickHit _ | slowHit => exact ⟨rfl, rfl⟩
    | sent | unusable | miss | struggle _ => cases h

/-- A monitor makes out all targets that were tried but those that were given up before the latest
response. The latest one to be given up still counts, as the one with open attempts. -/
theorem card_triedTargets {m : Mark} {earlier : List Mark} {monitor : Monitor}
    (hSent : m = .sent → awaitsSend earlier = true)
    (hTallies : Monitor.Tallies ((m :: earlier).filterMap Mark.verdict) monitor)
    (hRoom : Monitor.sinceSuccess ((m :: earlier).filterMap Mark.verdict) < streakBound) :
    (triedTargets (m :: earlier)).card = monitor.targetsSeen + earlier.countP Mark.isFall := by
  rw [triedTargets_eq, Finset.card_range, Mark.countP_draws, hTallies.targetsSeen_eq hRoom,
    Mark.count_verdicts, attempts_cons, List.countP_cons, List.countP_cons]
  cases m with
  | sent =>
    obtain ⟨hUntried, hHit⟩ := attempts_of_awaitsSend (hSent rfl)
    have hHead : ((Mark.sent :: earlier).filterMap Mark.verdict).head? = some true := hHit
    rw [hUntried, hHead]
    rfl
  | quickHit _ | slowHit =>
    show _ + 1 + (_ + 0) + 0 = _ + 1 + 0 + _
    omega
  | unusable | miss =>
    show _ + 0 + (_ + 0) + 1 = _ + 0 + 1 + _
    omega
  | struggle downgrade =>
    cases downgrade with
    | true =>
      show _ + 0 + (_ + 1) + 0 = _ + 0 + 1 + _
      omega
    | false =>
      show _ + 0 + (_ + 0) + 1 = _ + 0 + 1 + _
      omega

variable {σ : Type} [RandomSource σ] {config : ControllerConfig} {protocol : ProtocolConfig}
  {random : σ} {marks : List Mark} {c : Controller σ}

theorem awaitsSend_of_sent {output : Option String}
    (h : markNext config protocol random marks output = .sent) : awaitsSend marks = true := by
  by_contra hExpects
  rw [markNext, if_neg hExpects] at h
  split at h
  · cases h
  · dsimp only at h
    split at h <;> split at h <;> cases h

theorem marksFor_concat (outputs : List (Option String)) (output : Option String) :
    marksFor config protocol random (outputs ++ [output]) =
      markNext config protocol random (marksFor config protocol random outputs) output ::
        marksFor config protocol random outputs :=
  List.foldl_concat ..

/-- The mark of a response holds its verdict. -/
theorem Follows.verdict_eq (h : Follows config protocol random marks c) (output : Option String) :
    c.verdict output = (markNext config protocol random marks output).verdict := by
  have hTarget : c.target = (drawn config random marks).1 := congrArg Prod.fst h.target
  unfold verdict markNext
  cases hPhase : c.phase with
  | sendTarget =>
    rw [if_pos (h.phase.mp hPhase)]
    rfl
  | awaitingAttemptResult =>
    have hExpects : ¬ awaitsSend marks = true := by
      intro hSend
      rw [h.phase.mpr hSend] at hPhase
      cases hPhase
    rw [if_neg hExpects, h.protocol, hTarget]
    cases attemptOf? protocol output with
    | none => rfl
    | some attempt =>
      dsimp only
      by_cases hHit : attempt = ((drawn config random marks).1 : Int)
      · rw [if_pos hHit, decide_eq_true (congrArg some hHit)]
        split <;> rfl
      · rw [if_neg hHit, decide_eq_false fun hSame => hHit (Option.some.inj hSame)]
        split <;> rfl

/-- A response tells the monitor what its mark says. -/
theorem Follows.tallies_respond (h : Follows config protocol random marks c)
    (hTallies : Monitor.Tallies (marks.filterMap Mark.verdict) c.monitor) (output : Option String) :
    Monitor.Tallies
      ((markNext config protocol random marks output :: marks).filterMap Mark.verdict)
      (c.respond output).2.monitor := by
  obtain ⟨-, hMonitor⟩ := c.respond_verdict output
  rw [hMonitor, h.verdict_eq, List.filterMap_cons]
  cases (markNext config protocol random marks output).verdict with
  | none => exact hTallies
  | some success => exact hTallies.record success

/-- After any outputs a monitor has been told the verdicts of all marks. -/
theorem tallies_marks (config : ControllerConfig) (protocol : ProtocolConfig) (random : σ)
    (outputs : List (Option String)) :
    Monitor.Tallies ((marksFor config protocol random outputs).filterMap Mark.verdict)
      (respondAll outputs (start config protocol random)).monitor := by
  induction outputs using List.reverseRecOn with
  | nil => exact Monitor.tallies_empty
  | append_singleton outputs output ih =>
    have hFollows := (follows_start config protocol random).respondAll outputs
    rw [marksFor_concat, respondAll, List.foldl_concat]
    exact hFollows.tallies_respond ih output

/-- **The rate of success overlooks targets.** After any outputs it is the hits divided by the
targets that the monitor makes out. Of the targets that at least one output was judged against,
these are all but the ones that were given up, in a fall to a lower tier, before the latest
response, as long as there is room to count the attempts since the latest hit. So it counts every
target that was tried exactly as long as nothing has followed a fall. -/
theorem triedTargets_beside_monitor (config : ControllerConfig) (protocol : ProtocolConfig)
    (random : σ) (outputs : List (Option String)) :
    let marks := marksFor config protocol random outputs
    let c := respondAll outputs (start config protocol random)
    (c.target, c.random) = drawn config random marks ∧
      c.monitor.successRate = ratio (marks.countP Mark.isHit) c.monitor.targetsSeen ∧
      (Monitor.sinceSuccess (marks.filterMap Mark.verdict) < streakBound →
        (triedTargets marks).card = c.monitor.targetsSeen + marks.tail.countP Mark.isFall ∧
        (c.monitor.targetsSeen = (triedTargets marks).card ↔
          ∀ m ∈ marks.tail, m.isFall = false)) := by
  have hFollows := (follows_start config protocol random).respondAll outputs
  have hTold := tallies_marks config protocol random outputs
  intro marks c
  have hTallies : Monitor.Tallies (marks.filterMap Mark.verdict) c.monitor := hTold
  refine ⟨hFollows.target, ?_, fun hRoom => ?_⟩
  · rw [Monitor.successRate, hTallies.successes, Mark.count_verdicts]
  · have hTried : (triedTargets marks).card =
        c.monitor.targetsSeen + marks.tail.countP Mark.isFall := by
      rcases List.eq_nil_or_concat outputs with rfl | ⟨outputs, output, rfl⟩
      · rfl
      · have hMarks : marks =
            markNext config protocol random (marksFor config protocol random outputs) output ::
              marksFor config protocol random outputs := by
          rw [← marksFor_concat, ← List.concat_eq_append]
        rw [hMarks] at hTallies hRoom ⊢
        exact card_triedTargets awaitsSend_of_sent hTallies hRoom
    have hNone : marks.tail.countP Mark.isFall = 0 ↔ ∀ m ∈ marks.tail, m.isFall = false := by
      simp only [List.countP_eq_zero, Bool.not_eq_true]
    refine ⟨hTried, ?_⟩
    rw [← hNone, hTried]
    omega

/-- Five misses, of which the last one gives the target up, and a hit at the target drawn then: two
targets were tried, and the monitor makes out one. -/
example : let outputs := List.replicate 5 (some "9") ++ [some "2"]
    (triedTargets (marksFor {} {} ([7, 2] : List Nat) outputs)).card = 2 ∧
      (respondAll outputs (start {} {} ([7, 2] : List Nat))).monitor.targetsSeen = 1 := by
  decide

end Controller

end FactorMachine
