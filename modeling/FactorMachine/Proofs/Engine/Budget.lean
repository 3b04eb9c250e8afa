import FactorMachine.Proofs.Engine.Bounds
import FactorMachine.Trainer.Controller

/-!
# FactorMachine — budgets add up

Whoever runs an engine for long does so on a budget of calls: `runUntilBlocked` makes steps, and
`drive` makes steps and supplies words from a source. Both may end before the budget does. Ending
early is no loss: what remains of the budget would not change anything any more. So a budget may be
split at any call, also between a request for a word and the word, and no step and no word is
lost or made twice.

Either way of running is one small move made over and over. `Engine.proceed` is a step of an
engine that is free to run, `exchange` a step or a word, and both leave alone whatever cannot go on.

## Results

* `Orderly.after_run`   — a run proceeds as often as its budget allows.
* `drive_exchanges`     — a drive exchanges as often as its budget allows.
* `exists_led`          — what a drive delivers from a list of words, and why it ends.
* `budgets_add`         — budgets add up, and neither way of running is ever refused.
-/

namespace FactorMachine

namespace Engine

variable {σ : Type} [RandomSource σ] {e e' : Engine σ} {r : StepResult}

-- ---------------------------------------------------------------------------
-- Engines in use
-- ---------------------------------------------------------------------------

/-- What holds of every engine between two calls: all that was written has been shown, and there
is a fault exactly in the errored phase. -/
structure Orderly (e : Engine σ) : Prop where
  settled : e.Settled
  sound : ∃ length height depth, e.Sound length height depth

theorem Orderly.after (h : e.Orderly) (call : Call) : (call.after e).Orderly := by
  refine call.after_induction ?_ ?_ ?_ h
  · intro a b r hHere hStep
    obtain ⟨length, height, depth, hSound⟩ := hHere.sound
    exact ⟨(Reaches.refl.step hStep).settled hHere.settled, _, _, _, hSound.step hStep⟩
  · intro a b v r hHere hResume
    obtain ⟨length, height, depth, hSound⟩ := hHere.sound
    exact ⟨(Reaches.refl.resume hResume).settled hHere.settled, _, _, _, hSound.resume hResume⟩
  · intro a output hHere
    rwa [hHere.settled.snapshot]

theorem Reachable.orderly {depth : Nat} {program : List Chunk} {stack : List Word}
    (h : Reachable depth program stack e) : e.Orderly := by
  induction h with
  | start program stack historyLimit random =>
    exact ⟨settled_start .., _, _, _, sound_start ..⟩
  | call call _ ih => exact ih.after call
  | reload program' stack' _ ih =>
    exact { settled := settled_reinitialize .., sound := ⟨_, _, _, sound_reinitialize rfl ..⟩ }

omit [RandomSource σ] in
/-- The last result says whether an engine takes another step. -/
theorem Orderly.blocked_iff (h : e.Orderly) (hStanding : e.Standing r) :
    r.blocked = true ↔ ¬ e.phase.canStep = true := by
  obtain ⟨length, height, depth, hSound⟩ := h.sound
  have hFault := hSound.fault
  unfold StepResult.blocked
  rw [hStanding.needsInput, hStanding.halted, hStanding.fault]
  -- it waits, has halted, or has a fault because it is errored
  cases hPhase : e.phase <;> simp [hPhase, Phase.canStep] at hFault ⊢ <;> simp [hFault]

-- ---------------------------------------------------------------------------
-- Runs
-- ---------------------------------------------------------------------------

/-- One step, if the engine is free to take it. -/
def proceed (e : Engine σ) : Engine σ := if e.phase.canStep = true then e.next else e

theorem proceed_of_canStep (h : e.phase.canStep = true) : e.proceed = e.next := if_pos h

theorem proceed_iterate_of_blocked (h : ¬ e.phase.canStep = true) (n : Nat) :
    proceed^[n] e = e := by
  have hFixed : e.proceed = e := if_neg h
  exact Function.iterate_fixed hFixed n

theorem Call.after_step (h : e.phase.canStep = true) : Call.step.after e = e.next := by
  obtain ⟨r, hStep, -⟩ := step_next h
  exact Call.after_of_answer hStep

theorem Orderly.next (h : e.Orderly) (hPhase : e.phase.canStep = true) : e.next.Orderly :=
  Call.after_step hPhase ▸ h.after .step

/-- After `k` steps a run with a budget of `n` makes its last one. -/
structure LastStep (n k : Nat) (e : Engine σ) : Prop where
  lt : k < n
  free : (proceed^[k] e).phase.canStep = true
  last : k + 1 = n ∨ ¬ (proceed^[k + 1] e).phase.canStep = true

/-- A run shows its last step, if it makes one. -/
theorem Orderly.stepsFrom (n : Nat) : ∀ {e : Engine σ} (last : Option StepResult), e.Orderly →
    (∃ k r, LastStep n k e ∧ (proceed^[k] e).step = .ok (r, proceed^[n] e) ∧
      e.stepsFrom n last = .ok (some r, proceed^[n] e)) ∨
    (n = 0 ∨ ¬ e.phase.canStep = true) ∧ proceed^[n] e = e ∧
      e.stepsFrom n last = .ok (last, e) := by
  induction n with
  | zero => exact fun last _ => .inr ⟨.inl rfl, rfl, rfl⟩
  | succ n ih =>
    intro e last h
    by_cases hPhase : e.phase.canStep = true
    · obtain ⟨r, hStep, hStanding⟩ := step_next hPhase
      have hNext : e.next.Orderly := h.next hPhase
      have hBlocked := hNext.blocked_iff hStanding
      have hProceed : e.proceed = e.next := proceed_of_canStep hPhase
      left
      simp only [Function.iterate_succ_apply, hProceed, stepsFrom_of_step hStep]
      by_cases hEnds : r.blocked = true
      · -- the run ends here, and the steps that are left would not be taken
        have hStops := hBlocked.mp hEnds
        rw [if_pos hEnds, proceed_iterate_of_blocked hStops]
        refine ⟨0, r, ⟨n.succ_pos, hPhase, .inr ?_⟩, hStep, rfl⟩
        rwa [Function.iterate_one, hProceed]
      · rw [if_neg hEnds]
        rcases ih (some r) hNext with ⟨k, r', hLast, hThere, hSteps⟩ | ⟨hNone, hStays, hSteps⟩
        · refine ⟨k + 1, r', ⟨Nat.succ_lt_succ hLast.lt, ?_, ?_⟩, ?_, hSteps⟩
          all_goals simp only [Function.iterate_succ_apply, hProceed]
          · exact hLast.free
          · exact hLast.last.imp_left (congrArg (· + 1))
          · exact hThere
        · -- the engine could go on, so it is the budget that is used up
          obtain rfl : n = 0 := hNone.resolve_right fun hStops => hEnds (hBlocked.mpr hStops)
          exact ⟨0, r, ⟨Nat.zero_lt_one, hPhase, .inl rfl⟩, hStep, hSteps⟩
    · rw [stepsFrom_succ, if_neg hPhase, proceed_iterate_of_blocked hPhase]
      exact .inr ⟨.inr hPhase, rfl, rfl⟩

/-- The result of a run is that of its last step, if it makes one. -/
theorem Orderly.answer_run (h : e.Orderly) (n : Nat) :
    (∃ k r, LastStep n k e ∧ (proceed^[k] e).step = .ok (r, proceed^[n] e) ∧
      e.runUntilBlocked n = .ok (r, proceed^[n] e)) ∨
    (n = 0 ∨ ¬ e.phase.canStep = true) ∧ proceed^[n] e = e ∧
      e.runUntilBlocked n = .ok ((e.snapshot none).1, proceed^[n] e) := by
  have hRun := runUntilBlocked_eq e n
  rcases h.stepsFrom n none with ⟨k, r, hLast, hStep, hSteps⟩ | ⟨hNone, hStays, hSteps⟩
  · rw [bind_ok hSteps] at hRun
    exact .inl ⟨k, r, hLast, hStep, hRun⟩
  · rw [bind_ok hSteps] at hRun
    have hShown : e.snapshot none = ((e.snapshot none).1, proceed^[n] e) :=
      Prod.ext rfl ((h.settled.snapshot none).trans hStays.symm)
    exact .inr ⟨hNone, hStays, hRun.trans (congrArg Except.ok hShown)⟩

/-- A run proceeds as often as its budget allows. -/
theorem Orderly.after_run (h : e.Orderly) (n : Nat) :
    (Call.runUntilBlocked n).after e = proceed^[n] e := by
  obtain ⟨r, hAnswer⟩ : ∃ r, (Call.runUntilBlocked n).answer e = .ok (r, proceed^[n] e) := by
    rcases h.answer_run n with ⟨k, r, -, -, hRun⟩ | ⟨-, -, hRun⟩
    · exact ⟨r, hRun⟩
    · exact ⟨(e.snapshot none).1, hRun⟩
  exact Call.after_of_answer hAnswer

end Engine

-- ---------------------------------------------------------------------------
-- Drives
-- ---------------------------------------------------------------------------

open Engine

variable {σ ι : Type} [RandomSource σ] [InputSource ι] {e : Engine σ}

/-- One call: a step where the engine is free to run, a word from the source where it waits. -/
def exchange : Engine σ × ι → Engine σ × ι := fun (e, source) =>
  match e.phase with
  | .ready | .running => (e.next, source)
  | .awaitingInput =>
    match InputSource.nextInput e.lastOutput source with
    | (none, source) => (e, source)
    | (some v, source) => ((Call.resume v).after e, source)
  | .halted | .errored => (e, source)

/-- A source that has no answer stays as it is, so that it has none when it is asked again. -/
def Steadfast (ι : Type) [InputSource ι] : Prop :=
  ∀ (lastOutput : Option String) (source source' : ι),
    InputSource.nextInput lastOutput source = (none, source') → source' = source

theorem steadfast_words : Steadfast (List Word) := by
  intro lastOutput source source' hNone
  cases source with
  | nil => exact (Prod.mk.inj hNone).2.symm
  | cons v rest => simp [InputSource.nextInput] at hNone

theorem steadfast_controller (τ : Type) [RandomSource τ] : Steadfast (Controller τ) := by
  intro lastOutput source source' hNone
  simp [InputSource.nextInput] at hNone

/-- A word is never refused by an engine that waits. -/
theorem exists_resume (v : Word) (hAwaits : e.phase = .awaitingInput) :
    ∃ r, e.resume v = .ok (r, (Call.resume v).after e) := by
  obtain ⟨shown, hResume⟩ : ∃ shown, e.resume v = .ok shown := by
    rcases Nat.lt_or_ge e.stack.length e.maxStackDepth with hRoom | hFull
    · exact ⟨_, resume_room v hAwaits hRoom⟩
    · exact ⟨_, resume_full v hAwaits hFull⟩
  have hAfter : (Call.resume v).after e = shown.2 := Call.after_of_answer hResume
  exact ⟨shown.1, hAfter ▸ hResume⟩

theorem exists_driveFrom (n : Nat) : ∀ (last : StepResult) (e : Engine σ) (source : ι),
    ∃ r e' source', driveFrom n last e source = .ok (r, e', source') := by
  induction n with
  | zero =>
    intro last e source
    exact ⟨last, e, source, rfl⟩
  | succ n ih =>
    intro last e source
    unfold driveFrom
    cases hPhase : e.phase with
    | ready | running =>
      obtain ⟨r, hStep, -⟩ := step_next (e := e) (by rw [hPhase]; rfl)
      simp only [hStep]
      exact ih r e.next source
    | awaitingInput =>
      rcases InputSource.nextInput e.lastOutput source with ⟨_ | v, source'⟩
      · exact ⟨last, e, source', rfl⟩
      · obtain ⟨r, hResume⟩ := exists_resume v hPhase
        simp only [hResume]
        exact ih r _ source'
    | halted | errored => exact ⟨last, e, source, rfl⟩

theorem driveFrom_exchanges (hSteadfast : Steadfast ι) (n : Nat) :
    ∀ (last : StepResult) (e : Engine σ) (source : ι),
      ∃ r, driveFrom n last e source = .ok (r, exchange^[n] (e, source)) := by
  induction n with
  | zero =>
    intro last e source
    exact ⟨last, rfl⟩
  | succ n ih =>
    intro last e source
    -- what ends the drive early is left alone by every exchange that follows
    have hEnd (hFixed : exchange (e, source) = (e, source)) :
        exchange^[n + 1] (e, source) = (e, source) := Function.iterate_fixed hFixed (n + 1)
    unfold driveFrom
    cases hPhase : e.phase with
    | ready | running =>
      obtain ⟨r, hStep, -⟩ := step_next (e := e) (by rw [hPhase]; rfl)
      have hExchange : exchange (e, source) = (e.next, source) := by simp [exchange, hPhase]
      simp only [hStep, Function.iterate_succ_apply, hExchange]
      exact ih r e.next source
    | awaitingInput =>
      rcases hInput : InputSource.nextInput e.lastOutput source with ⟨_ | v, source'⟩
      · obtain rfl := hSteadfast _ _ _ hInput
        rw [hEnd (by simp [exchange, hPhase, hInput])]
        exact ⟨last, rfl⟩
      · obtain ⟨r, hResume⟩ := exists_resume v hPhase
        have hExchange : exchange (e, source) = ((Call.resume v).after e, source') := by
          simp [exchange, hPhase, hInput]
        simp only [hResume, Function.iterate_succ_apply, hExchange]
        exact ih r _ source'
    | halted | errored =>
      rw [hEnd (by simp [exchange, hPhase])]
      exact ⟨last, rfl⟩

/-- What a drive leaves: the engine and the source. -/
def driven (e : Engine σ) (source : ι) (maxSteps : Nat) : Except Refusal (Engine σ × ι) :=
  (drive e source maxSteps).map Prod.snd

/-- A drive exchanges as often as its budget allows. -/
theorem drive_exchanges (hSteadfast : Steadfast ι) (hSettled : e.Settled) (source : ι) (n : Nat) :
    driven e source n = .ok (exchange^[n] (e, source)) := by
  obtain ⟨r, hDrive⟩ := driveFrom_exchanges hSteadfast n (e.snapshot none).1 e source
  have hFirst : drive e source n = driveFrom n (e.snapshot none).1 (e.snapshot none).2 source := rfl
  rw [driven, hFirst, hSettled.snapshot, hDrive]
  rfl

theorem settled_exchange (hSettled : e.Settled) (source : ι) :
    (exchange (e, source)).1.Settled := by
  cases hPhase : e.phase with
  | ready | running =>
    obtain ⟨r, hStep, -⟩ := step_next (e := e) (by rw [hPhase]; rfl)
    have hExchange : exchange (e, source) = (e.next, source) := by simp [exchange, hPhase]
    rw [hExchange]
    exact (Reaches.refl.step hStep).settled hSettled
  | awaitingInput =>
    rcases hInput : InputSource.nextInput e.lastOutput source with ⟨_ | v, source'⟩
    · simpa [exchange, hPhase, hInput] using hSettled
    · obtain ⟨r, hResume⟩ := exists_resume v hPhase
      simpa [exchange, hPhase, hInput] using (Reaches.refl.resume hResume).settled hSettled
  | halted | errored => simpa [exchange, hPhase] using hSettled

theorem settled_exchanges (n : Nat) : ∀ {e : Engine σ} (source : ι), e.Settled →
    (exchange^[n] (e, source)).1.Settled := by
  induction n with
  | zero => exact fun _ hSettled => hSettled
  | succ n ih => exact fun source hSettled => ih _ (settled_exchange hSettled source)

theorem driven_add (hSteadfast : Steadfast ι) (hSettled : e.Settled) (source : ι) (m n : Nat) :
    driven e source (m + n) =
      driven e source m >>= fun (e', source') => driven e' source' n := by
  have hMid := settled_exchanges m source hSettled
  rw [drive_exchanges hSteadfast hSettled, bind_ok (drive_exchanges hSteadfast hSettled source m),
    Nat.add_comm, Function.iterate_add_apply]
  generalize exchange^[m] (e, source) = mid at hMid ⊢
  obtain ⟨e', source'⟩ := mid
  exact (drive_exchanges hSteadfast hMid source' n).symm

-- ---------------------------------------------------------------------------
-- Words in order
-- ---------------------------------------------------------------------------

namespace Engine

/-- Whether a call gives an engine just what it needs to go on. -/
def Call.Serves : Call → Engine σ → Prop
  | step, e => e.phase.canStep = true
  | resume _, e => e.phase = .awaitingInput
  | runUntilBlocked _, _ | snapshot _, _ => False

/-- Calls in a row that give the engine each time just what it needs: a word wherever it waits, and
a step wherever it is free to run. -/
def Led : List Call → Engine σ → Prop
  | [], _ => True
  | call :: calls, e => call.Serves e ∧ Led calls (call.after e)

/-- The words that calls supply, in order. -/
def wordsOf (calls : List Call) : List Word :=
  calls.filterMap fun
    | .resume v => some v
    | _ => none

end Engine

/-- Driving an engine with a list of words leads it on with the first of them, one wherever it
waits, and leaves the others. It ends early only if the engine has stopped, or waits with no word
left. -/
theorem exists_led (n : Nat) : ∀ (e : Engine σ) (inputs : List Word),
    ∃ calls, Led calls e ∧ (exchange^[n] (e, inputs)).1 = afterCalls calls e ∧
      inputs = wordsOf calls ++ (exchange^[n] (e, inputs)).2 ∧ calls.length ≤ n ∧
      (calls.length < n → (afterCalls calls e).phase = .halted ∨
        (afterCalls calls e).phase = .errored ∨
        (afterCalls calls e).phase = .awaitingInput ∧ (exchange^[n] (e, inputs)).2 = []) := by
  induction n with
  | zero =>
    intro e inputs
    exact ⟨[], trivial, rfl, rfl, Nat.le_refl 0, nofun⟩
  | succ n ih =>
    intro e inputs
    have hEnd (hFixed : exchange (e, inputs) = (e, inputs)) :
        exchange^[n + 1] (e, inputs) = (e, inputs) := Function.iterate_fixed hFixed (n + 1)
    cases hPhase : e.phase with
    | ready | running =>
      have hFree : e.phase.canStep = true := by rw [hPhase]; rfl
      have hExchange : exchange (e, inputs) = (Call.step.after e, inputs) := by
        simp [exchange, hPhase, Call.after_step hFree]
      obtain ⟨calls, hLed, hEngine, hWords, hLength, hWhy⟩ := ih (Call.step.after e) inputs
      rw [Function.iterate_succ_apply, hExchange]
      exact ⟨.step :: calls, ⟨hFree, hLed⟩, hEngine, hWords, Nat.succ_le_succ hLength,
        fun hLess => hWhy (Nat.lt_of_succ_lt_succ hLess)⟩
    | awaitingInput =>
      cases inputs with
      | nil =>
        rw [hEnd (by simp [exchange, hPhase, InputSource.nextInput])]
        exact ⟨[], trivial, rfl, rfl, Nat.zero_le _, fun _ => .inr (.inr ⟨hPhase, rfl⟩)⟩
      | cons v rest =>
        have hExchange : exchange (e, v :: rest) = ((Call.resume v).after e, rest) := by
          simp [exchange, hPhase, InputSource.nextInput]
        obtain ⟨calls, hLed, hEngine, hWords, hLength, hWhy⟩ := ih ((Call.resume v).after e) rest
        rw [Function.iterate_succ_apply, hExchange]
        exact ⟨.resume v :: calls, ⟨hPhase, hLed⟩, hEngine, congrArg (v :: ·) hWords,
          Nat.succ_le_succ hLength, fun hLess => hWhy (Nat.lt_of_succ_lt_succ hLess)⟩
    | halted =>
      rw [hEnd (by simp [exchange, hPhase])]
      exact ⟨[], trivial, rfl, rfl, Nat.zero_le _, fun _ => .inl hPhase⟩
    | errored =>
      rw [hEnd (by simp [exchange, hPhase])]
      exact ⟨[], trivial, rfl, rfl, Nat.zero_le _, fun _ => .inr (.inl hPhase)⟩

/-- **Budgets add up.** Of any engine in use: no run and no drive is ever refused, whatever the
source. A run with a budget of `m + n` steps leaves the same engine as a run with a budget of `m`
and then one of `n`, and a drive with words from a list or from a controller leaves the same engine
and the same source. Driving with a list of words supplies the first of them in order, one wherever
the engine waits and none elsewhere, and the others are what is left. It makes as many calls as its
budget allows, unless the engine has stopped or waits with no word left. -/
theorem budgets_add {depth : Nat} {program : List Chunk} {stack : List Word}
    (h : Reachable depth program stack e) :
    (∀ n, ∃ r e', e.runUntilBlocked n = .ok (r, e')) ∧
    (∀ (ι : Type) [InputSource ι] (source : ι) n, ∃ r e' source',
      drive e source n = .ok (r, e', source')) ∧
    (∀ m n, (Call.runUntilBlocked (m + n)).after e =
      (Call.runUntilBlocked n).after ((Call.runUntilBlocked m).after e)) ∧
    (∀ (inputs : List Word) m n, driven e inputs (m + n) =
      driven e inputs m >>= fun (e', rest) => driven e' rest n) ∧
    (∀ (τ : Type) [RandomSource τ] (controller : Controller τ) m n, driven e controller (m + n) =
      driven e controller m >>= fun (e', controller') => driven e' controller' n) ∧
    ∀ (inputs : List Word) n r e' rest, drive e inputs n = .ok (r, e', rest) →
      ∃ calls, Led calls e ∧ afterCalls calls e = e' ∧ inputs = wordsOf calls ++ rest ∧
        calls.length ≤ n ∧ (calls.length < n → e'.phase = .halted ∨ e'.phase = .errored ∨
          e'.phase = .awaitingInput ∧ rest = []) := by
  have hOrderly : e.Orderly := h.orderly
  refine ⟨exists_runUntilBlocked e, ?_, ?_, ?_, ?_, ?_⟩
  · intro ι _ source n
    exact exists_driveFrom n _ _ source
  · intro m n
    rw [(hOrderly.after _).after_run, hOrderly.after_run, hOrderly.after_run, Nat.add_comm,
      Function.iterate_add_apply]
  · exact driven_add steadfast_words hOrderly.settled
  · intro τ _
    exact driven_add (steadfast_controller τ) hOrderly.settled
  · intro inputs n r e' rest hDrive
    have hLeft := drive_exchanges steadfast_words hOrderly.settled inputs n
    rw [driven, hDrive] at hLeft
    have hLeft : (e', rest) = exchange^[n] (e, inputs) := Except.ok.inj hLeft
    obtain ⟨calls, hLed, hEngine, hWords, hLength, hWhy⟩ := exists_led n e inputs
    rw [← hLeft] at hEngine hWords hWhy
    obtain rfl : e' = afterCalls calls e := hEngine
    exact ⟨calls, hLed, rfl, hWords, hLength, hWhy⟩

/-- A drive may be cut between the first request for a word and the word. -/
theorem budgets_add_between : ∃ (e : Engine (List Nat)) (inputs : List Word),
    Reachable 4 [28398241, 28398241] [] e ∧ inputs = [5, 6] ∧
    (driven e inputs 1).map (fun (e', rest) => (e'.phase, rest)) =
      .ok (.awaitingInput, [5, 6]) ∧
    (driven e inputs (1 + 2)).map (fun (e', rest) => (e'.stack, rest)) = .ok ([6, 5], []) ∧
    driven e inputs (1 + 2) = driven e inputs 1 >>= fun (e', rest) => driven e' rest 2 := by
  have hReachable : Reachable 4 [28398241, 28398241] []
      (start [28398241, 28398241] [] 4 0 [] : Engine (List Nat)) := .start ..
  obtain ⟨-, -, -, hWords, -⟩ := budgets_add hReachable
  exact ⟨_, [5, 6], hReachable, rfl, by decide +kernel, by decide +kernel, hWords [5, 6] 1 2⟩

end FactorMachine
