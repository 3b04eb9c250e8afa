import FactorMachine.Proofs.Trainer.Upkeep

/-!
# FactorMachine — every cycle of training is accounted for

Training goes on until as many cycles as were asked for have come to a report, and a cycle that
fails is made again after a restart. `Trains` is this loop, with nothing to bound its rounds. A
round makes progress in one of two ways, by a report or by a restart, and there is a limited supply
of both: so the loop ends by itself, and the counter of `trainFrom`, which is larger than the two
together, never runs out.

The accounts are read off what happened. Where training succeeds there were just as many reports as
were asked for, and every failed cycle stands next to the rebuilding that followed it. Where it
fails it does so right after a failed cycle, for one of three reasons, and `GivesUp` tells which.
One of them is that no program came out. This is excluded in the life of a session, where a program
always comes out.

## Results

* `trains_train`          — training is the loop, and its counter never runs out.
* `Trains.of_ok`          — the accounts where training succeeds.
* `Trains.of_error`       — the accounts where it fails.
* `training_accounts`     — both, for any session and any number of cycles.
-/

namespace FactorMachine

namespace Session

variable {σ : Type}

-- ---------------------------------------------------------------------------
-- Accounts
-- ---------------------------------------------------------------------------

namespace Episode

def isCycle : Episode σ → Bool
  | .cycle _ _ => true
  | .rebuild _ => false

/-- A cycle that came to a report. -/
def isReported : Episode σ → Bool
  | .cycle _ (.ok _ _) => true
  | _ => false

/-- A cycle that failed. -/
def isFailed : Episode σ → Bool
  | .cycle _ (.error _ _) => true
  | _ => false

end Episode

variable [RandomSource σ]

/-- Every failed cycle was one that a restart may cure, and is followed at once by the rebuilding
of a restart, and there are no other rebuildings. -/
def EachRebuilt : List (Episode σ) → Prop
  | [] => True
  | .cycle _ (.ok _ _) :: later => EachRebuilt later
  | .cycle _ (.error failure failed) :: .rebuild fresh :: later =>
    failure.isRecoverable = true ∧ restart.run failed = .ok () fresh ∧ EachRebuilt later
  | _ => False

/-- Why training with so many restarts ends with a cycle that failed, with which error, and in which
session. -/
inductive GivesUp (allowed : Nat) : (failure : SessionError) → (failed : Session σ) →
    SessionError → Session σ → Prop
  /-- The engine refused a call, which no restart cures. This is passed on at once. -/
  | refused {failed : Session σ} (refusal : Refusal) :
      GivesUp allowed (.engine refusal) failed (.engine refusal) failed
  /-- A restart might help, but all have been used up. -/
  | exhausted {failure : SessionError} {failed : Session σ}
      (hRecoverable : failure.isRecoverable = true) (hNone : failed.restarts = allowed) :
      GivesUp allowed failure failed (.tooManyRestarts allowed) failed
  /-- There was a restart left, but no program came out. -/
  | unbuilt {failure : SessionError} {failed after : Session σ} {cause : AssemblyError}
      (hRecoverable : failure.isRecoverable = true) (hLeft : failed.restarts < allowed)
      (hRestart : restart.run failed = .error (.assembly cause) after) :
      GivesUp allowed failure failed (.assembly cause) after

/-- Training until `remaining` cycles have come to a report: what happens, and how it ends. -/
inductive Trains : (remaining : Nat) → Session σ → List (Episode σ) →
    EStateM.Result SessionError (Session σ) Unit → Prop
  | done {s : Session σ} : Trains 0 s [] (.ok () s)
  | report {n : Nat} {s s₁ : Session σ} {report : CycleReport} {later : List (Episode σ)}
      {ending : EStateM.Result SessionError (Session σ) Unit}
      (hCycle : cycle.run s = .ok report s₁) (hLater : Trains n s₁ later ending) :
      Trains (n + 1) s (.cycle s (.ok report s₁) :: later) ending
  | again {n : Nat} {s s₁ s₂ : Session σ} {e : SessionError} {later : List (Episode σ)}
      {ending : EStateM.Result SessionError (Session σ) Unit}
      (hCycle : cycle.run s = .error e s₁) (hRecoverable : e.isRecoverable = true)
      (hRestart : restart.run s₁ = .ok () s₂) (hLater : Trains (n + 1) s₂ later ending) :
      Trains (n + 1) s (.cycle s (.error e s₁) :: .rebuild s₂ :: later) ending
  | fatal {n : Nat} {s s₁ : Session σ} {e : SessionError}
      (hCycle : cycle.run s = .error e s₁) (hFatal : e.isRecoverable = false) :
      Trains (n + 1) s [.cycle s (.error e s₁)] (.error e s₁)
  | stuck {n : Nat} {s s₁ s₂ : Session σ} {e e' : SessionError}
      (hCycle : cycle.run s = .error e s₁) (hRecoverable : e.isRecoverable = true)
      (hRestart : restart.run s₁ = .error e' s₂) :
      Trains (n + 1) s [.cycle s (.error e s₁)] (.error e' s₂)

-- ---------------------------------------------------------------------------
-- The loop ends by itself
-- ---------------------------------------------------------------------------

/-- A counter above the reports and restarts that are left bounds nothing. -/
theorem trains_trainFrom {counter remaining : Nat} {s : Session σ}
    (hCounter : remaining + (s.config.session.maxRestarts - s.restarts) < counter) :
    Trains remaining s (trainEpisodes counter remaining s)
      ((trainFrom counter remaining).run s) := by
  induction counter generalizing remaining s with
  | zero => omega
  | succ counter ih =>
    cases remaining with
    | zero => exact .done
    | succ remaining =>
      rw [trainFrom_succ, trainEpisodes]
      cases hCycle : cycle.run s with
      | ok report s₁ =>
        -- a report fewer to come
        have hKept := upkept_of_ok hCycle
        exact .report hCycle (ih (by rw [hKept.config, hKept.restarts]; omega))
      | error e s₁ =>
        have hKept := upkept_of_error hCycle
        dsimp only
        by_cases hRecoverable : e.isRecoverable = true
        · rw [if_pos hRecoverable, if_pos hRecoverable]
          cases hRestart : restart.run s₁ with
          | ok _ s₂ =>
            -- a restart fewer is left
            obtain ⟨hLeft, hRestarts, hConfig⟩ := restart_ok hRestart
            rw [hKept.config, hKept.restarts] at hLeft
            rw [hKept.restarts] at hRestarts
            rw [hKept.config] at hConfig
            exact .again hCycle hRecoverable hRestart (ih (by rw [hConfig, hRestarts]; omega))
          | error e' s₂ => exact .stuck hCycle hRecoverable hRestart
        · rw [if_neg hRecoverable, if_neg hRecoverable]
          exact .fatal hCycle (Bool.eq_false_of_not_eq_true hRecoverable)

/-- Training is the loop, and its counter never runs out. -/
theorem trains_train (n : Nat) (s : Session σ) : ∃ ending,
    Trains n s ((Call.train n).episodes s) ending ∧ (train n).run s = withSummary n ending :=
  ⟨_, trains_trainFrom (Nat.lt_succ_self _), train_eq n s⟩

-- ---------------------------------------------------------------------------
-- The accounts
-- ---------------------------------------------------------------------------

variable {n : Nat} {s : Session σ} {happened : List (Episode σ)}
  {ending : EStateM.Result SessionError (Session σ) Unit}

namespace Trains

/-- Nowhere on the way, nor in the end, are there more restarts than allowed. -/
theorem restarts_le (h : Trains n s happened ending)
    (hLeft : s.restarts ≤ s.config.session.maxRestarts) :
    (∀ episode ∈ happened, episode.after.restarts ≤ s.config.session.maxRestarts) ∧
      (stateAfter ending).restarts ≤ s.config.session.maxRestarts := by
  induction h with
  | done => exact ⟨by simp, hLeft⟩
  | report hCycle hLater ih =>
    have hKept := upkept_of_ok hCycle
    rw [← hKept.config, ← hKept.restarts] at hLeft
    obtain ⟨hAll, hEnd⟩ := ih hLeft
    rw [hKept.config] at hLeft hAll hEnd
    exact ⟨List.forall_mem_cons.mpr ⟨hLeft, hAll⟩, hEnd⟩
  | again hCycle _ hRestart _ ih =>
    have hKept := upkept_of_error hCycle
    obtain ⟨hLess, hRestarts, hConfig⟩ := restart_ok hRestart
    have hAfter := hRestarts.trans_le hLess
    rw [hConfig] at ih
    obtain ⟨hAll, hEnd⟩ := ih hAfter
    rw [hKept.config] at hLess hAfter hAll hEnd
    exact ⟨List.forall_mem_cons.mpr ⟨hLess.le, List.forall_mem_cons.mpr ⟨hAfter, hAll⟩⟩, hEnd⟩
  | fatal hCycle _ =>
    have hKept := upkept_of_error hCycle
    rw [← hKept.restarts] at hLeft
    exact ⟨by simpa [Episode.after, stateAfter] using hLeft, hLeft⟩
  | stuck hCycle _ hRestart =>
    have hKept := upkept_of_error hCycle
    rw [← hKept.restarts] at hLeft
    refine ⟨by simpa [Episode.after, stateAfter] using hLeft, ?_⟩
    rw [← hKept.config] at hLeft ⊢
    rcases restart_error hRestart with ⟨-, -, rfl⟩ | ⟨hLess, hRestarts, -⟩
    · exact hLeft
    · exact hRestarts.trans_le hLess

/-- Where training succeeds, it has got what was asked for. -/
theorem of_ok (h : Trains n s happened ending) {s' : Session σ} (hEnding : ending = .ok () s') :
    EachRebuilt happened ∧ happened.countP Episode.isReported = n ∧
      s'.restarts = s.restarts + happened.countP Episode.isFailed := by
  induction h with
  | done =>
    cases hEnding
    exact ⟨trivial, rfl, rfl⟩
  | report hCycle _ ih =>
    have hKept := upkept_of_ok hCycle
    obtain ⟨hRebuilt, hReports, hRestarts⟩ := ih hEnding
    rw [hKept.restarts] at hRestarts
    refine ⟨hRebuilt, ?_, ?_⟩
    · rw [List.countP_cons_of_pos rfl, hReports]
    · rw [List.countP_cons_of_neg (by simp [Episode.isFailed]), hRestarts]
  | again hCycle hRecoverable hRestart _ ih =>
    have hKept := upkept_of_error hCycle
    obtain ⟨-, hCounted, -⟩ := restart_ok hRestart
    obtain ⟨hRebuilt, hReports, hRestarts⟩ := ih hEnding
    rw [hCounted, hKept.restarts] at hRestarts
    refine ⟨⟨hRecoverable, hRestart, hRebuilt⟩, ?_, ?_⟩
    · rw [List.countP_cons_of_neg (by simp [Episode.isReported]),
        List.countP_cons_of_neg (by simp [Episode.isReported]), hReports]
    · rw [List.countP_cons_of_pos rfl, List.countP_cons_of_neg (by simp [Episode.isFailed]),
        hRestarts]
      omega
  | fatal => cases hEnding
  | stuck => cases hEnding

/-- Where training fails, it does so right after a failed cycle. -/
theorem of_error (h : Trains n s happened ending) {e : SessionError} {s' : Session σ}
    (hEnding : ending = .error e s') (hLeft : s.restarts ≤ s.config.session.maxRestarts) :
    ∃ earlier before failure failed,
      happened = earlier ++ [.cycle before (.error failure failed)] ∧ EachRebuilt earlier ∧
      earlier.countP Episode.isReported < n ∧
      failed.restarts = s.restarts + earlier.countP Episode.isFailed ∧
      GivesUp s.config.session.maxRestarts failure failed e s' := by
  induction h with
  | done => cases hEnding
  | @report n s s₁ report later _ hCycle _ ih =>
    have hKept := upkept_of_ok hCycle
    rw [← hKept.config, ← hKept.restarts] at hLeft
    obtain ⟨earlier, before, failure, failed, rfl, hRebuilt, hReports, hRestarts, hGivesUp⟩ :=
      ih hEnding hLeft
    rw [hKept.restarts] at hRestarts
    rw [hKept.config] at hGivesUp
    refine ⟨.cycle s (.ok report s₁) :: earlier, before, failure, failed, rfl, hRebuilt, ?_, ?_,
      hGivesUp⟩
    · rw [List.countP_cons_of_pos rfl]
      omega
    · rw [List.countP_cons_of_neg (by simp [Episode.isFailed]), hRestarts]
  | @again n s s₁ s₂ e' later _ hCycle hRecoverable hRestart _ ih =>
    have hKept := upkept_of_error hCycle
    obtain ⟨hLess, hCounted, hConfig⟩ := restart_ok hRestart
    have hAfter := hCounted.trans_le hLess
    rw [← hConfig] at hAfter
    obtain ⟨earlier, before, failure, failed, rfl, hRebuilt, hReports, hRestarts, hGivesUp⟩ :=
      ih hEnding hAfter
    rw [hCounted, hKept.restarts] at hRestarts
    rw [hConfig, hKept.config] at hGivesUp
    refine ⟨.cycle s (.error e' s₁) :: .rebuild s₂ :: earlier, before, failure, failed, rfl,
      ⟨hRecoverable, hRestart, hRebuilt⟩, ?_, ?_, hGivesUp⟩
    · rw [List.countP_cons_of_neg (by simp [Episode.isReported]),
        List.countP_cons_of_neg (by simp [Episode.isReported])]
      exact hReports
    · rw [List.countP_cons_of_pos rfl, List.countP_cons_of_neg (by simp [Episode.isFailed]),
        hRestarts]
      omega
  | @fatal n s s₁ e' hCycle hFatal =>
    have hKept := upkept_of_error hCycle
    cases hEnding
    obtain hRecoverable | ⟨refusal, rfl⟩ := failure_of_cycle hCycle
    · rw [hFatal] at hRecoverable
      cases hRecoverable
    · exact ⟨[], s, _, s', rfl, trivial, Nat.succ_pos n, hKept.restarts, .refused refusal⟩
  | @stuck n s s₁ s₂ e' _ hCycle hRecoverable hRestart =>
    have hKept := upkept_of_error hCycle
    rw [← hKept.config, ← hKept.restarts] at hLeft
    cases hEnding
    refine ⟨[], s, e', s₁, rfl, trivial, Nat.succ_pos n, hKept.restarts, ?_⟩
    rw [← hKept.config]
    rcases restart_error hRestart with ⟨hNone, rfl, rfl⟩ | ⟨hLess, -, cause, rfl⟩
    · have hAll := Nat.le_antisymm hLeft hNone
      rw [hAll]
      exact .exhausted hRecoverable hAll
    · exact .unbuilt hRecoverable hLess hRestart

end Trains

omit [RandomSource σ] in
/-- A cycle comes to a report or fails. -/
theorem countP_isCycle (episodes : List (Episode σ)) : episodes.countP Episode.isCycle =
    episodes.countP Episode.isReported + episodes.countP Episode.isFailed := by
  induction episodes with
  | nil => rfl
  | cons episode later ih =>
    rw [List.countP_cons, List.countP_cons, List.countP_cons, ih]
    cases episode with
    | rebuild after => rfl
    | cycle before outcome =>
      cases outcome with
      | ok report after =>
        show _ + 1 = _ + 1 + (_ + 0)
        omega
      | error e after =>
        show _ + 1 = _ + 0 + (_ + 1)
        omega

/-- The number of cycles is bounded by the reports that are to come and the restarts that are
left. -/
theorem Trains.countP_isCycle_le (h : Trains n s happened ending)
    (hLeft : s.restarts ≤ s.config.session.maxRestarts) : happened.countP Episode.isCycle ≤
      n + (s.config.session.maxRestarts - s.restarts) + 1 := by
  obtain ⟨hAll, hEnd⟩ := h.restarts_le hLeft
  rw [countP_isCycle]
  cases hEnding : ending with
  | ok _ s' =>
    obtain ⟨-, hReports, hRestarts⟩ := h.of_ok hEnding
    rw [hEnding] at hEnd
    have hEnd : s'.restarts ≤ s.config.session.maxRestarts := hEnd
    omega
  | error e s' =>
    obtain ⟨earlier, before, failure, failed, rfl, -, hReports, hRestarts, -⟩ :=
      h.of_error hEnding hLeft
    have hLast : failed.restarts ≤ s.config.session.maxRestarts :=
      hAll (.cycle before (.error failure failed)) (by simp)
    rw [List.countP_append, List.countP_append]
    show _ + 0 + (_ + 1) ≤ _
    omega

/-- In the life of a session there is always a program. -/
theorem Trains.ne_assembly {c : Config} (h : Trains n s happened ending) (hSupplied : Supplied c s)
    (cause : AssemblyError) (s' : Session σ) : ending ≠ .error (.assembly cause) s' := by
  induction h with
  | done => exact nofun
  | report hCycle _ ih =>
    have hAfter := hSupplied.cycle
    rw [hCycle] at hAfter
    exact ih hAfter
  | @again _ _ s₁ _ _ _ _ hCycle _ hRestart _ ih =>
    have hAfter := hSupplied.cycle
    rw [hCycle] at hAfter
    have hFresh := Supplied.restart (s := s₁) hAfter
    rw [hRestart] at hFresh
    exact ih hFresh
  | fatal hCycle hFatal =>
    intro hSame
    cases hSame
    obtain hRecoverable | ⟨refusal, hRefusal⟩ := failure_of_cycle hCycle
    · cases hRecoverable
    · cases hRefusal
  | stuck hCycle _ hRestart =>
    have hAfter := hSupplied.cycle
    rw [hCycle] at hAfter
    intro hSame
    cases hSame
    exact hAfter.restart_ne_assembly cause hRestart

theorem restarts_of_start {c : Config} {random₁ random₂ : σ}
    (h : start c random₁ random₂ = .ok s) : s.restarts = 0 ∧ s.config = c := by
  obtain ⟨_, _, _, -, -, -, rfl⟩ := start_eq_ok h
  exact ⟨rfl, rfl⟩

/-- **Training ends and accounts for every cycle.** A session with no more restarts than allowed
trains for any number of cycles. The loop ends by itself, after no more cycles than there are
reports to come and restarts left and one more, and at no time are there more restarts than allowed.
If it succeeds, the summary and the reports have the number that was asked for, and each failed
cycle was followed by a rebuilding and is counted as a restart. If it fails, then right after a
failed cycle: when no restart is left for a failure that one might cure, or at once and without a
restart. A rebuilding that fails is the one other way out, and in the life of a session none
does. -/
theorem training_accounts (n : Nat) (s : Session σ)
    (hLeft : s.restarts ≤ s.config.session.maxRestarts) :
    let allowed := s.config.session.maxRestarts
    let happened := (Call.train n).episodes s
    (∃ ending, Trains n s happened ending ∧ (train n).run s = withSummary n ending) ∧
    happened.countP Episode.isCycle ≤ n + (allowed - s.restarts) + 1 ∧
    (∀ episode ∈ happened, episode.after.restarts ≤ allowed) ∧
    (stateAfter ((train n).run s)).restarts ≤ allowed ∧
    (∀ summary s', (train n).run s = .ok summary s' →
      summary.cycles = n ∧ happened.countP Episode.isReported = n ∧
      s'.restarts = s.restarts + happened.countP Episode.isFailed ∧ EachRebuilt happened) ∧
    (∀ e s', (train n).run s = .error e s' → ∃ earlier before failure failed,
      happened = earlier ++ [.cycle before (.error failure failed)] ∧ EachRebuilt earlier ∧
      failed.restarts = s.restarts + earlier.countP Episode.isFailed ∧
      GivesUp allowed failure failed e s') ∧
    ∀ (c : Config) (random₁ random₂ : σ) (first : Session σ) (calls : List Call),
      start c random₁ random₂ = .ok first → afterCalls calls first = s →
      ∀ cause s', (train n).run s ≠ .error (.assembly cause) s' := by
  obtain ⟨ending, hTrains, hRun⟩ := trains_train n s
  obtain ⟨hAll, hEnd⟩ := hTrains.restarts_le hLeft
  refine ⟨⟨ending, hTrains, hRun⟩, hTrains.countP_isCycle_le hLeft, hAll, ?_, ?_, ?_, ?_⟩
  · rw [hRun, stateAfter_withSummary]
    exact hEnd
  · intro summary s' hOk
    rw [hRun] at hOk
    obtain ⟨hEnding, rfl⟩ := withSummary_eq_ok hOk
    obtain ⟨hRebuilt, hReports, hRestarts⟩ := hTrains.of_ok hEnding
    exact ⟨rfl, hReports, hRestarts, hRebuilt⟩
  · intro e s' hError
    rw [hRun] at hError
    obtain ⟨earlier, before, failure, failed, hHappened, hRebuilt, -, hRestarts, hGivesUp⟩ :=
      hTrains.of_error (withSummary_eq_error hError) hLeft
    exact ⟨earlier, before, failure, failed, hHappened, hRebuilt, hRestarts, hGivesUp⟩
  · rintro c random₁ random₂ first calls hStart rfl cause s' hError
    rw [hRun] at hError
    exact hTrains.ne_assembly (supplied_afterCalls hStart calls) cause s'
      (withSummary_eq_error hError)

/-- A session with a single slot and a single restart trains for two cycles. It makes four at
most. -/
theorem training_accounts_smallest : ∃ s : Session (List Nat),
    start { seeker := { slotCount := 1 }, session := { maxRestarts := 1 } } [] [3] = .ok s ∧
      s.restarts ≤ s.config.session.maxRestarts ∧
      ((Call.train 2).episodes s).countP Episode.isCycle ≤ 4 ∧
      (stateAfter ((train 2).run s)).restarts ≤ 1 ∧
      ∀ cause s', (train 2).run s ≠ .error (.assembly cause) s' := by
  obtain ⟨b, seeker, b', hBuilder, hBuild, -⟩ := Seeker.exists_smallest
  have hTarget : (Controller.start {} {} [3] : Controller (List Nat)).target = 3 := by decide
  obtain ⟨s, hStart⟩ := exists_start
    (c := { seeker := { slotCount := 1 }, session := { maxRestarts := 1 } }) [] (by decide)
    hBuilder hTarget hBuild
  obtain ⟨hRestarts, hConfig⟩ := restarts_of_start hStart
  have hAllowed : s.config.session.maxRestarts = 1 := by rw [hConfig]
  have hLeft : s.restarts ≤ s.config.session.maxRestarts := by omega
  obtain ⟨-, hCycles, -, hEnd, -, -, hProgram⟩ := training_accounts 2 s hLeft
  rw [hAllowed, hRestarts] at hCycles
  rw [hAllowed] at hEnd
  exact ⟨s, hStart, hLeft, hCycles, hEnd, hProgram _ _ _ _ [] hStart rfl⟩

end Session

end FactorMachine
