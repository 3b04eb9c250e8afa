import FactorMachine.Proofs.Seeker.Requests
import FactorMachine.Proofs.Trainer.Lockstep

/-!
# FactorMachine — the life of a session

Whoever has a session calls for single cycles, for training and for a fresh program, in any order.
`life` lists everything that comes of it: each cycle, also those within training, with the
session before it and its outcome, and each fresh program.

`Onward` says that such a list leads from one session in step to another. It holds of a cycle
and of a rebuilding, and it composes, so it holds of training and of a whole life.

## Results

* `onward_cycle`, `onward_call` — a cycle, and any call, keeps engine and controller in step.
* `lockstep`                    — what every report in the life of a session says.
-/

namespace FactorMachine

namespace Session

variable {σ : Type}

-- ---------------------------------------------------------------------------
-- What happens to a session
-- ---------------------------------------------------------------------------

inductive Episode (σ : Type) where
  /-- A cycle, with the session before it and its outcome. -/
  | cycle (before : Session σ) (outcome : EStateM.Result SessionError (Session σ) CycleReport)
  /-- A fresh program was loaded. -/
  | rebuild (after : Session σ)

def Episode.after : Episode σ → Session σ
  | .cycle _ outcome => stateAfter outcome
  | .rebuild after => after

/-- Reports on attempts and reports on targets take turns, beginning with an attempt or not.
After a rebuilding it is an attempt's turn. -/
def Alternates : (attempt : Bool) → List (Episode σ) → Prop
  | _, [] => True
  | attempt, .cycle _ (.ok report _) :: rest =>
    report.success.isSome = attempt ∧ Alternates (!attempt) rest
  | attempt, .cycle _ (.error _ _) :: rest => Alternates attempt rest
  | _, .rebuild _ :: rest => Alternates true rest

/-- What is asked of a session. -/
inductive Call where
  | cycle
  | train (cycles : Nat)
  /-- A fresh program. -/
  | rebuild

variable [RandomSource σ]

/-- What happens in training, round by round as in `trainFrom`. -/
def trainEpisodes : (counter remaining : Nat) → Session σ → List (Episode σ)
  | 0, _, _ => []
  | _, 0, _ => []
  | counter + 1, remaining + 1, s =>
    .cycle s (cycle.run s) ::
      match cycle.run s with
      | .ok _ s => trainEpisodes counter remaining s
      | .error e s =>
        if e.isRecoverable then
          match restart.run s with
          | .ok () s => .rebuild s :: trainEpisodes counter (remaining + 1) s
          | .error _ _ => []
        else []

namespace Call

/-- What happens in a call. -/
def episodes : Call → Session σ → List (Episode σ)
  | .cycle, s => [.cycle s (Session.cycle.run s)]
  | .train cycles, s =>
    trainEpisodes (cycles + (s.config.session.maxRestarts - s.restarts) + 1) cycles s
  | .rebuild, s =>
    match Session.reinitialize.run s with
    | .ok () s => [.rebuild s]
    | .error _ _ => []

/-- The session after a call. -/
def after : Call → Session σ → Session σ
  | .cycle, s => stateAfter (Session.cycle.run s)
  | .train cycles, s => stateAfter ((Session.train cycles).run s)
  | .rebuild, s => stateAfter (Session.reinitialize.run s)

end Call

/-- Everything that happens in calls one after the other. -/
def life : List Call → Session σ → List (Episode σ)
  | [], _ => []
  | call :: calls, s => call.episodes s ++ life calls (call.after s)

/-- The session after calls one after the other. -/
def afterCalls (calls : List Call) (s : Session σ) : Session σ :=
  calls.foldl (fun s call => call.after s) s

-- ---------------------------------------------------------------------------
-- Rounds of training
-- ---------------------------------------------------------------------------

section Rounds

variable {s' : Session σ} {e : SessionError} {cycles : Nat}
  {ending : EStateM.Result SessionError (Session σ) Unit}

/-- A round of training. -/
theorem trainFrom_succ (counter remaining : Nat) (s : Session σ) :
    (trainFrom (counter + 1) (remaining + 1)).run s =
      match cycle.run s with
      | .ok _ s => (trainFrom counter remaining).run s
      | .error e s =>
        if e.isRecoverable then
          match restart.run s with
          | .ok () s => (trainFrom counter (remaining + 1)).run s
          | .error e s => .error e s
        else .error e s := rfl

/-- Training sums up where it has got through its rounds. -/
def withSummary (cycles : Nat) : EStateM.Result SessionError (Session σ) Unit →
    EStateM.Result SessionError (Session σ) TrainingSummary
  | .ok () s' => .ok (s'.summary cycles) s'
  | .error e s' => .error e s'

omit [RandomSource σ] in
theorem stateAfter_withSummary : stateAfter (withSummary cycles ending) = stateAfter ending := by
  cases ending <;> rfl

omit [RandomSource σ] in
theorem withSummary_eq_ok {summary : TrainingSummary}
    (h : withSummary cycles ending = .ok summary s') :
    ending = .ok () s' ∧ summary = s'.summary cycles := by
  cases ending with
  | ok _ s₁ =>
    cases h
    exact ⟨rfl, rfl⟩
  | error e s₁ => cases h

omit [RandomSource σ] in
theorem withSummary_eq_error (h : withSummary cycles ending = .error e s') :
    ending = .error e s' := by
  cases ending with
  | ok _ s₁ => cases h
  | error e' s₁ =>
    cases h
    rfl

/-- The counter is no part of training: it is what the rounds are bounded by. -/
theorem train_eq (cycles : Nat) (s : Session σ) : (train cycles).run s = withSummary cycles
    ((trainFrom (cycles + (s.config.session.maxRestarts - s.restarts) + 1) cycles).run s) := by
  unfold train
  rw [run_bind_ok (EStateM.run_get s)]
  cases hRun : (trainFrom (cycles + (s.config.session.maxRestarts - s.restarts) + 1) cycles).run s
    with
  | ok _ s' =>
    rw [run_bind_ok hRun]
    rfl
  | error e s' =>
    rw [run_bind_error hRun]
    rfl

end Rounds

-- ---------------------------------------------------------------------------
-- One thing after another
-- ---------------------------------------------------------------------------

/-- An episode is as it has to be when engine and controller are in step. -/
def Episode.Faithful (c : Config) : Episode σ → Prop
  | .cycle before (.ok report after) =>
    (report.success ≠ none → report.success = some true ∧
      report.input = c.protocol.successFeedback ∧
      report.lastOutput = some (toString before.controller.target)) ∧
    (report.success = none → report.input = before.controller.target ∧
      after.controller.target = before.controller.target) ∧
    after.failureStreak = 0
  | .cycle _ (.error e after) =>
    e = .stepBudgetExhausted c.session.maxStepsPerCycle ∧ after.failureStreak = 0
  | .rebuild after => after.failureStreak = 0

/-- Whether the next report in step is on an attempt. -/
def expectsAttempt (s : Session σ) : Bool := s.controller.phase = .awaitingAttemptResult

/-- Episodes that lead from a session to another one, in step all the way. -/
structure Onward (c : Config) (s : Session σ) (episodes : List (Episode σ)) (s' : Session σ) :
    Prop where
  inStep : InStep c s'
  faithful : ∀ episode ∈ episodes, episode.Faithful c
  turns : ∀ rest, Alternates s'.expectsAttempt rest → Alternates s.expectsAttempt (episodes ++ rest)

variable {c : Config} {s s' s'' : Session σ}

theorem Onward.refl (h : InStep c s) : Onward c s [] s where
  inStep := h
  faithful := by simp
  turns _ hRest := hRest

theorem Onward.trans {xs ys : List (Episode σ)} (h : Onward c s xs s') (h' : Onward c s' ys s'') :
    Onward c s (xs ++ ys) s'' where
  inStep := h'.inStep
  faithful episode hMem := by
    rcases List.mem_append.mp hMem with hFirst | hSecond
    · exact h.faithful episode hFirst
    · exact h'.faithful episode hSecond
  turns rest hRest := by
    rw [List.append_assoc]
    exact h.turns _ (h'.turns rest hRest)

omit [RandomSource σ] in
theorem expectsAttempt_eq_true (h : s.controller.phase = .awaitingAttemptResult) :
    s.expectsAttempt = true :=
  decide_eq_true h

omit [RandomSource σ] in
theorem expectsAttempt_eq_false (h : s.controller.phase = .sendTarget) :
    s.expectsAttempt = false :=
  decide_eq_false (by rw [h]; decide)

/-- Where the controller is as before, it is the same turn. -/
theorem Onward.of_same {episodes : List (Episode σ)} (h : InStep c s')
    (hSame : s'.controller = s.controller)
    (hFaithful : ∀ episode ∈ episodes, episode.Faithful c)
    (hTurns : ∀ attempt rest, Alternates attempt rest → Alternates attempt (episodes ++ rest)) :
    Onward c s episodes s' where
  inStep := h
  faithful := hFaithful
  turns rest hRest := by
    have hTurn : s'.expectsAttempt = s.expectsAttempt := by
      unfold expectsAttempt
      rw [hSame]
    exact hTurns _ rest (hTurn ▸ hRest)

/-- A cycle that uses up its steps. -/
theorem onward_exhausted (h : InStep c s') (hSame : s'.controller = s.controller)
    (hRun : cycle.run s = .error (.stepBudgetExhausted c.session.maxStepsPerCycle) s') :
    Onward c s [.cycle s (cycle.run s)] (stateAfter (cycle.run s)) := by
  rw [hRun]
  refine .of_same h hSame ?_ fun _ _ hRest => hRest
  intro episode hMem
  obtain rfl := List.mem_singleton.mp hMem
  exact ⟨rfl, h.streak⟩

/-- A cycle keeps engine and controller in step. -/
theorem onward_cycle (h : InStep c s) :
    Onward c s [.cycle s (cycle.run s)] (stateAfter (cycle.run s)) := by
  cases hPhase : s.controller.phase with
  | awaitingAttemptResult =>
    obtain ⟨s', hInStep, ⟨hRun, hSame⟩ | ⟨report, hRun, hSuccess, hInput, hOutput, hThen⟩⟩ :=
      cycle_hit h hPhase
    · exact onward_exhausted hInStep hSame hRun
    · rw [hRun]
      refine ⟨hInStep, ?_, ?_⟩
      · intro episode hMem
        obtain rfl := List.mem_singleton.mp hMem
        refine ⟨fun _ => ⟨hSuccess, hInput, hOutput⟩, fun hNone => ?_, hInStep.streak⟩
        rw [hSuccess] at hNone
        cases hNone
      · intro rest hRest
        have hRest : Alternates s'.expectsAttempt rest := hRest
        rw [expectsAttempt_eq_false hThen] at hRest
        rw [expectsAttempt_eq_true hPhase]
        exact ⟨by rw [hSuccess]; rfl, hRest⟩
  | sendTarget =>
    obtain ⟨s', hInStep, ⟨hRun, hSame⟩ | ⟨report, hRun, hSuccess, hInput, hTarget, hThen⟩⟩ :=
      cycle_send h hPhase
    · exact onward_exhausted hInStep hSame hRun
    · rw [hRun]
      refine ⟨hInStep, ?_, ?_⟩
      · intro episode hMem
        obtain rfl := List.mem_singleton.mp hMem
        exact ⟨fun hSome => absurd hSuccess hSome, fun _ => ⟨hInput, hTarget⟩, hInStep.streak⟩
      · intro rest hRest
        have hRest : Alternates s'.expectsAttempt rest := hRest
        rw [expectsAttempt_eq_true hThen] at hRest
        rw [expectsAttempt_eq_false hPhase]
        exact ⟨by rw [hSuccess]; rfl, hRest⟩

/-- A rebuilding, whatever the session before it. -/
theorem onward_rebuild (h : InStep c s') (hThen : s'.controller.phase = .awaitingAttemptResult) :
    Onward c s [.rebuild s'] s' where
  inStep := h
  faithful episode hMem := by
    obtain rfl := List.mem_singleton.mp hMem
    exact h.streak
  turns rest hRest := by
    rw [expectsAttempt_eq_true hThen] at hRest
    exact hRest

/-- Training is cycles and rebuildings, one after another. -/
theorem onward_trainFrom (h : InStep c s) (counter remaining : Nat) :
    Onward c s (trainEpisodes counter remaining s)
      (stateAfter ((trainFrom counter remaining).run s)) := by
  induction counter generalizing remaining s with
  | zero => exact .refl h
  | succ counter ih =>
    cases remaining with
    | zero => exact .refl h
    | succ remaining =>
      have hCycle := onward_cycle h
      rw [trainFrom_succ, trainEpisodes]
      cases hRun : cycle.run s with
      | ok report s₁ =>
        rw [hRun] at hCycle
        -- a report, and one cycle fewer to go
        exact hCycle.trans (ih hCycle.inStep remaining)
      | error e s₁ =>
        rw [hRun] at hCycle
        dsimp only
        -- a cycle that failed does not count, and is made again after a restart
        by_cases hRecoverable : e.isRecoverable
        · rw [if_pos hRecoverable, if_pos hRecoverable]
          obtain ⟨s₂, hInStep, ⟨hOk, hThen⟩ | ⟨e', hError, hSame⟩⟩ :=
            restart_spec (s := s₁) hCycle.inStep
          · rw [hOk]
            exact hCycle.trans ((onward_rebuild hInStep hThen).trans (ih hInStep (remaining + 1)))
          · rw [hError]
            exact hCycle.trans (.of_same hInStep hSame (by simp) fun _ _ hRest => hRest)
        · rw [if_neg hRecoverable, if_neg hRecoverable]
          exact hCycle

/-- Each call keeps engine and controller in step. -/
theorem onward_call (h : InStep c s) (call : Call) :
    Onward c s (call.episodes s) (call.after s) := by
  cases call with
  | cycle => exact onward_cycle h
  | train cycles =>
    have hTrain :=
      onward_trainFrom h (cycles + (s.config.session.maxRestarts - s.restarts) + 1) cycles
    have hSame : stateAfter ((train cycles).run s) = stateAfter
        ((trainFrom (cycles + (s.config.session.maxRestarts - s.restarts) + 1) cycles).run s) := by
      rw [train_eq, stateAfter_withSummary]
    rw [← hSame] at hTrain
    exact hTrain
  | rebuild =>
    unfold Call.episodes Call.after
    dsimp only
    obtain ⟨s', hInStep, ⟨hOk, hThen⟩ | ⟨e, hError, hSame⟩⟩ := reinitialize_spec h
    · rw [hOk]
      exact onward_rebuild hInStep hThen
    · rw [hError]
      exact .of_same hInStep hSame (by simp) fun _ _ hRest => hRest

/-- So does a whole life. -/
theorem onward_life (h : InStep c s) (calls : List Call) :
    Onward c s (life calls s) (afterCalls calls s) := by
  induction calls generalizing s with
  | nil => exact .refl h
  | cons call calls ih =>
    have hCall := onward_call h call
    exact hCall.trans (ih hCall.inStep)

/-- The life of a session under a configuration that is accepted. Every judged attempt is a hit on
the target that the controller held, a word that is not a judgement is the target that it
holds, the two kinds take turns from every rebuilding on, beginning with an attempt, and a cycle
fails only by using up its steps. There is never a streak of failures. -/
theorem lockstep {random₁ random₂ : σ} (hStart : start c random₁ random₂ = .ok s)
    (calls : List Call) :
    (∀ (before : Session σ) (report : CycleReport) (after : Session σ),
      .cycle before (.ok report after) ∈ life calls s → report.success ≠ none →
        report.success = some true ∧ report.input = c.protocol.successFeedback ∧
        report.lastOutput = some (toString before.controller.target)) ∧
    (∀ (before : Session σ) (report : CycleReport) (after : Session σ),
      .cycle before (.ok report after) ∈ life calls s → report.success = none →
        report.input = before.controller.target ∧
        after.controller.target = before.controller.target) ∧
    Alternates true (life calls s) ∧
    (∀ (before : Session σ) (e : SessionError) (after : Session σ),
      .cycle before (.error e after) ∈ life calls s →
        e = .stepBudgetExhausted c.session.maxStepsPerCycle) ∧
    (∀ episode ∈ life calls s, episode.after.failureStreak = 0) ∧
    (afterCalls calls s).failureStreak = 0 := by
  obtain ⟨hInStep, hPhase⟩ := start_spec hStart
  have hLife := onward_life hInStep calls
  refine ⟨?_, ?_, ?_, ?_, ?_, hLife.inStep.streak⟩
  · intro before report after hMem
    exact (hLife.faithful _ hMem).1
  · intro before report after hMem
    exact (hLife.faithful _ hMem).2.1
  · -- the first turn of a session is an attempt's
    have hTurns := hLife.turns [] (by cases expectsAttempt (afterCalls calls s) <;> trivial)
    rw [List.append_nil, expectsAttempt_eq_true hPhase] at hTurns
    exact hTurns
  · intro before e after hMem
    exact (hLife.faithful _ hMem).1
  · intro episode hMem
    have hFaithful := hLife.faithful episode hMem
    cases episode with
    | rebuild after => exact hFaithful
    | cycle before outcome =>
      cases outcome with
      | ok report after => exact hFaithful.2.2
      | error e after => exact hFaithful.2

/-- With a single slot and a first draw of three there is a session. It makes a cycle, trains for
two and gets a fresh program. -/
theorem lockstep_smallest : ∃ s : Session (List Nat),
    start { seeker := { slotCount := 1 } } [] [3] = .ok s ∧
      Alternates true (life [.cycle, .train 2, .rebuild] s) ∧
      (afterCalls [.cycle, .train 2, .rebuild] s).failureStreak = 0 := by
  obtain ⟨b, seeker, b', hBuilder, hBuild, -⟩ := Seeker.exists_smallest
  have hTarget : (Controller.start {} {} [3] : Controller (List Nat)).target = 3 := by decide
  obtain ⟨s, hStart⟩ := exists_start (c := { seeker := { slotCount := 1 } }) [] (by decide)
    hBuilder hTarget hBuild
  obtain ⟨-, -, hTurns, -, -, hStreak⟩ := lockstep hStart [.cycle, .train 2, .rebuild]
  exact ⟨s, hStart, hTurns, hStreak⟩

end Session

end FactorMachine
