import FactorMachine.Proofs.Engine.Bounds
import FactorMachine.Proofs.Engine.History
import FactorMachine.Proofs.Engine.Protocol

/-!
# FactorMachine — history has no influence

Nothing that an engine does depends on its history. Two engines that differ only there give the
same replies to the same calls and still differ only there, and both have recorded the same events
on top of what they had. These events obey the protocol.

Each result comes in both parts at once, since the events of a part are needed for the whole:
`Operation.Tells` and `Engine.Tells` say that something goes alike whatever the history is, and
which events it adds.

## Results

* `tells_executeNext`        — what an engine does next, and `Call.exists_tells`, every call.
* `transcript_reinitialize`  — an engine that is loaded again is as good as a new one.
* `trace_of_ready`           — what is recorded from loading on.
-/

namespace FactorMachine

variable {σ : Type}

/-- The same engine with another history. -/
def Engine.withHistory (e : Engine σ) (h : History) : Engine σ := { e with history := h }

namespace Operation

variable {α β : Type} {e e' : Engine σ} {events events' : List Event}

/-- The operation goes alike whatever the history is, and records these events. -/
def Tells (x : Operation σ α) (e : Engine σ) (events : List Event) : Prop :=
  ∀ h, x.run (e.withHistory h) = mapState (·.withHistory (h.recordAll events)) (x.run e)

theorem Tells.ok {x : Operation σ α} {a : α} (hx : x.Tells e events) (hRun : x.run e = .ok a e')
    (h : History) : x.run (e.withHistory h) = .ok a (e'.withHistory (h.recordAll events)) := by
  rw [hx, hRun, mapState]

theorem Tells.error {x : Operation σ α} {fault : Fault} (hx : x.Tells e events)
    (hRun : x.run e = .error fault e') (h : History) :
    x.run (e.withHistory h) = .error fault (e'.withHistory (h.recordAll events)) := by
  rw [hx, hRun, mapState]

theorem Tells.bind_ok {x : Operation σ α} {f : α → Operation σ β} {a : α} (hx : x.Tells e events)
    (hRun : x.run e = .ok a e') (hf : (f a).Tells e' events') :
    (x >>= f).Tells e (events ++ events') := by
  intro h
  rw [run_bind_ok hRun, run_bind_ok (hx.ok hRun h), hf, History.recordAll_append]

theorem Tells.bind_error {x : Operation σ α} {f : α → Operation σ β} {fault : Fault}
    (hx : x.Tells e events) (hRun : x.run e = .error fault e') : (x >>= f).Tells e events := by
  intro h
  rw [run_bind_error hRun, run_bind_error (hx.error hRun h), mapState]

/-- Work on operands records nothing. -/
theorem OnOperands.tells [RandomSource σ] {x : Operation σ α} (hx : OnOperands x) :
    ∀ e : Engine σ, x.Tells e [] := by
  induction hx with
  | done a => exact fun _ _ => rfl
  | fault fault => exact fun _ _ => rfl
  | @andThen α β x f _ _ ihx ihf =>
    intro e
    cases hRun : x.run e with
    | ok a e' => exact (ihx e).bind_ok hRun (ihf a e')
    | error fault e' => exact (ihx e).bind_error hRun
  | push v =>
    intro e h
    simp only [push_run, Engine.withHistory]
    split <;> rfl
  | pop address op =>
    intro e h
    simp only [pop_run, Engine.withHistory]
    split <;> rfl
  | top address op =>
    intro e h
    simp only [top_run, Engine.withHistory]
    split <;> rfl
  | swapTop address op =>
    intro e h
    simp only [swapTop_run, Engine.withHistory]
    split <;> rfl
  | requireWords n fault =>
    intro e h
    simp only [requireWords_run, Engine.withHistory]
    split <;> rfl
  | toAddress v =>
    intro e h
    simp only [toAddress_run, Engine.withHistory]
    split <;> rfl
  | readCell address =>
    intro e h
    simp only [readCell_run, Engine.withHistory]
    split <;> rfl
  | drawBelow bound => exact fun _ _ => rfl

end Operation

-- ---------------------------------------------------------------------------
-- One instruction
-- ---------------------------------------------------------------------------

open Operation Event

/-- The events that an effect records. -/
def Effect.events : Effect → Engine σ → List Event
  | print v, _ => [.output v]
  | await, _ => [.inputRequested]
  | halt, _ => [.halted]
  | poke target value, e =>
    match target.toNatBelow? e.memory.size, value.toNatBelow? Word.bound with
    | some a, some _ => [.poke a]
    | _, _ => []
  | proceed, _ | jump _, _ | call _, _ | ret, _ => []

theorem Effect.tells (effect : Effect) (e : Engine σ) :
    effect.perform.Tells e (effect.events e) := by
  intro h
  rw [run_perform, run_perform]
  cases effect with
  | proceed | print v | await | halt => rfl
  | jump target =>
    simp only [outcome, Engine.withHistory]
    split <;> rfl
  | call target =>
    simp only [outcome, Engine.withHistory]
    cases target.toNatBelow? e.memory.size with
    | none => rfl
    | some a =>
      by_cases hFull : e.maxStackDepth ≤ e.callStack.length
      · simp only [hFull, if_true]
        rfl
      · simp only [hFull, if_false]
        rfl
  | ret =>
    simp only [outcome, Engine.withHistory]
    split <;> rfl
  | poke target value =>
    simp only [outcome, events, Engine.withHistory]
    cases target.toNatBelow? e.memory.size with
    | none => rfl
    | some a => cases value.toNatBelow? Word.bound <;> rfl

/-- What an instruction has recorded when it is over: the events of a step, or nothing but itself
if it meets with a fault. -/
def Over (address : Nat) (op : Opcode) (events : List Event) :
    EStateM.Result Fault (Engine σ) (Option Word) → Prop
  | .ok _ e => Burst e.phase (.executed address op :: events)
  | .error _ _ => events = []

theorem Effect.over {effect : Effect} {op : Opcode} (hSuits : effect.Suits op) (address : Nat)
    {e : Engine σ} (hRunning : e.phase = .running) :
    Over address op (effect.events e) (effect.perform.run e) := by
  rw [run_perform]
  cases effect with
  | await =>
    obtain rfl : op = .input := hSuits
    exact .input address
  | halt =>
    obtain rfl : op = .halt := hSuits
    exact .ending (.halted address)
  | print v =>
    obtain rfl : op = .print := hSuits
    have hBurst : Burst .running [.executed address .print, .output v] := .print address v
    rwa [← hRunning] at hBurst
  | poke target value =>
    obtain rfl : op = .pokeChunk := hSuits
    simp only [outcome, events]
    cases target.toNatBelow? e.memory.size with
    | none => rfl
    | some a =>
      cases value.toNatBelow? Word.bound with
      | none => rfl
      | some chunk =>
        have hBurst : Burst .running [.executed address .pokeChunk, .poke a] := .poke address a
        rwa [← hRunning] at hBurst
  | proceed | jump target | call target | ret =>
    -- these have no event of their own
    have hBurst : Burst e.phase [.executed address op] := hRunning ▸ .plain address hSuits
    simp only [outcome, events]
    repeat' split
    all_goals first | exact hBurst | rfl

variable [RandomSource σ]

theorem Operation.Instruction.tells {op : Opcode} {x : Operation σ (Option Word)}
    (hx : Instruction op x) (address : Nat) : ∀ {e : Engine σ}, e.phase = .running →
      ∃ events, x.Tells e events ∧ Over address op events (x.run e) := by
  induction hx with
  | effect effect hSuits =>
    exact fun {e} hRunning => ⟨_, effect.tells e, Effect.over hSuits address hRunning⟩
  | @work α x f hWork _ ih =>
    intro e hRunning
    have hTells := hWork.tells e
    have hReworked := hWork.reworks e
    cases hRun : x.run e with
    | ok a e' =>
      rw [hRun, stateAfter] at hReworked
      have hRunning' : e'.phase = .running := by
        rw [hReworked.same]
        exact hRunning
      obtain ⟨events, hRest, hOver⟩ := ih a hRunning'
      exact ⟨events, hTells.bind_ok hRun hRest, (run_bind_ok hRun).symm ▸ hOver⟩
    | error fault e' =>
      exact ⟨[], hTells.bind_error hRun, (run_bind_error hRun).symm ▸ rfl⟩

/-- What an engine does next goes alike whatever the history is. It records what a step does, up to
the fault if it meets with one. -/
theorem tells_executeNext {e : Engine σ} (hRunning : e.phase = .running) :
    ∃ events, executeNext.Tells e events ∧
      match executeNext.run e with
      | .ok _ e' => Burst e'.phase events
      | .error _ _ => Burst .errored (events ++ [.fault]) := by
  simp only [Tells, executeNext_eq]
  have hFetch (h : History) : (e.withHistory h).fetch = e.fetch := rfl
  simp only [hFetch]
  cases e.fetch with
  | missing => exact ⟨[.halted], fun _ => rfl, .ending .ranOff⟩
  | degenerate => exact ⟨[], fun _ => rfl, hRunning ▸ Burst.skipped⟩
  | faulty fault => exact ⟨[], fun _ => rfl, .ending .unfetched⟩
  | instruction op operand =>
    obtain ⟨events, hTells, hOver⟩ := (instruction_execute e.ip op operand).tells e.ip
      (e := { e.record (.executed e.ip op) with ip := e.ip + 1 }) hRunning
    refine ⟨.executed e.ip op :: events, fun h => hTells (h.record (.executed e.ip op)), ?_⟩
    dsimp only
    cases hRun : (execute e.ip op operand).run
        { e.record (.executed e.ip op) with ip := e.ip + 1 } with
    | ok out e' =>
      rw [hRun] at hOver
      exact hOver
    | error fault e' =>
      rw [hRun] at hOver
      obtain rfl : events = [] := hOver
      exact .ending (.faulted e.ip op)

-- ---------------------------------------------------------------------------
-- Calls
-- ---------------------------------------------------------------------------

namespace Engine

variable {α β : Type} {e e' : Engine σ} {events events' : List Event}

/-- The call goes alike whatever the history is, and records these events, which keep to the
protocol. -/
structure Tells (f : Engine σ → Except Refusal (α × Engine σ)) (e : Engine σ)
    (events : List Event) : Prop where
  alike : ∀ h, f (e.withHistory h) =
    (f e).map fun (a, e') => (a, e'.withHistory (h.recordAll events))
  recorded : ∀ {past a e'}, f e = .ok (a, e') → Recorded e.phase past →
    Recorded e'.phase (past ++ events)

section Compose

omit [RandomSource σ]

variable {f : Engine σ → Except Refusal (α × Engine σ)} {a : α}

theorem Tells.of_refused (refusal : Refusal)
    (hRefused : ∀ h, f (e.withHistory h) = .error refusal) : Tells f e [] := by
  have hHere : f e = .error refusal := hRefused e.history
  refine ⟨fun h => ?_, fun hOk => ?_⟩
  · rw [hRefused h, hHere]
    rfl
  · rw [hHere] at hOk
    cases hOk

theorem Tells.of_answered (shown : α × Engine σ)
    (hAlike : ∀ h, f (e.withHistory h) = .ok (shown.1, shown.2.withHistory (h.recordAll events)))
    (hRecorded : ∀ {past}, Recorded e.phase past → Recorded shown.2.phase (past ++ events)) :
    Tells f e events := by
  have hHere : f e = .ok (shown.1, shown.2.withHistory (e.history.recordAll events)) :=
    hAlike e.history
  refine ⟨fun h => ?_, fun hOk hPast => ?_⟩
  · rw [hAlike h, hHere]
    rfl
  · rw [hHere] at hOk
    cases hOk
    exact hRecorded hPast

/-- A call that only shows something records nothing. -/
theorem Tells.of_shown (shown : α × Engine σ)
    (hAlike : ∀ h, f (e.withHistory h) = .ok (shown.1, shown.2.withHistory h))
    (hPhase : shown.2.phase = e.phase) : Tells f e [] :=
  .of_answered shown hAlike fun hPast => by rwa [List.append_nil, hPhase]

theorem Tells.congr {g : Engine σ → Except Refusal (α × Engine σ)} (hf : Tells f e events)
    (hSame : ∀ h, g (e.withHistory h) = f (e.withHistory h)) : Tells g e events := by
  have hHere : g e = f e := hSame e.history
  refine ⟨fun h => ?_, fun hOk => ?_⟩
  · rw [hSame, hHere, hf.alike]
  · rw [hHere] at hOk
    exact hf.recorded hOk

theorem Tells.andThen {g : α × Engine σ → Except Refusal (β × Engine σ)}
    (hf : Tells f e events) (hOk : f e = .ok (a, e')) (hg : Tells (fun e => g (a, e)) e' events') :
    Tells (fun e => f e >>= g) e (events ++ events') := by
  refine ⟨fun h => ?_, fun hBoth hPast => ?_⟩
  · have hFirst : f (e.withHistory h) = .ok (a, e'.withHistory (h.recordAll events)) := by
      rw [hf.alike, hOk]
      rfl
    rw [bind_ok hFirst, bind_ok hOk, hg.alike, History.recordAll_append]
  · rw [bind_ok hOk] at hBoth
    rw [← List.append_assoc]
    exact hg.recorded hBoth (hf.recorded hOk hPast)

end Compose

theorem exists_advance_withHistory (hRunning : e.phase = .running) :
    ∃ events, Burst e.advance.2.phase events ∧ ∀ h, (e.withHistory h).advance =
      (e.advance.1, e.advance.2.withHistory (h.recordAll events)) := by
  obtain ⟨events, hTells, hBurst⟩ := tells_executeNext hRunning
  unfold advance
  cases hRun : executeNext.run e with
  | ok out e' =>
    rw [hRun] at hBurst
    dsimp only at hBurst ⊢
    refine ⟨events, hBurst, fun h => ?_⟩
    rw [hTells.ok hRun]
    rfl
  | error fault e' =>
    rw [hRun] at hBurst
    dsimp only at hBurst ⊢
    refine ⟨events ++ [Event.fault], hBurst, fun h => ?_⟩
    rw [hTells.error hRun, History.recordAll_append]
    rfl

theorem exists_tells_step (e : Engine σ) : ∃ events, Tells step e events := by
  by_cases hPhase : e.phase.canStep = true
  · obtain ⟨events, hBurst, hAdvance⟩ :=
      exists_advance_withHistory (e := { e with phase := .running }) rfl
    refine ⟨events, .of_answered ({ e with phase := .running } : Engine σ).advance ?_ ?_⟩
    · exact fun h => step_eq_ok_iff.mpr ⟨hPhase, hAdvance h⟩
    · exact fun hPast => hPast.step hPhase hBurst
  · obtain ⟨refusal, hRefused⟩ := step_refused hPhase
    exact ⟨[], .of_refused refusal fun _ => hRefused rfl⟩

theorem exists_tells_resume (e : Engine σ) (v : Word) :
    ∃ events, Tells (fun e => e.resume v) e events := by
  by_cases hAwaits : e.phase = .awaitingInput
  · rcases Nat.lt_or_ge e.stack.length e.maxStackDepth with hRoom | hFull
    · obtain ⟨events, hBurst, hAdvance⟩ := exists_advance_withHistory (e := e.supplied v) rfl
      refine ⟨.inputSupplied v :: events,
        .of_answered (e.supplied v).advance (fun h => ?_) fun hPast => ?_⟩
      · rw [resume_room (e := e.withHistory h) v hAwaits hRoom]
        exact congrArg Except.ok (hAdvance (h.record (.inputSupplied v)))
      · rw [hAwaits] at hPast
        exact hPast.resume v hBurst
    · -- the word finds no room
      refine ⟨[.inputSupplied v, .fault], .of_answered
        ((({ e with phase := .running } : Engine σ).fail (.stackOverflow e.maxStackDepth)).snapshot
          none) (fun h => ?_) fun hPast => ?_⟩
      · exact resume_full (e := e.withHistory h) v hAwaits hFull
      · rw [hAwaits] at hPast
        exact hPast.resume v (.ending .unfetched)
  · refine ⟨[], .of_refused (.notAwaitingInput e.phase) fun h => ?_⟩
    unfold resume
    exact if_neg hAwaits

theorem exists_tells_stepsFrom (maxSteps : Nat) : ∀ (e : Engine σ) (last : Option StepResult),
    ∃ events, Tells (stepsFrom maxSteps last) e events := by
  induction maxSteps with
  | zero => exact fun e last => ⟨[], .of_shown (last, e) (fun _ => rfl) rfl⟩
  | succ maxSteps ih =>
    intro e last
    by_cases hPhase : e.phase.canStep = true
    · have hSucc (h : History) :=
        (stepsFrom_succ maxSteps last (e.withHistory h)).trans (if_pos hPhase)
      obtain ⟨events, hStep⟩ := exists_tells_step e
      obtain ⟨r, hOk, -⟩ := step_next hPhase
      by_cases hBlocked : r.blocked = true
      · refine ⟨_, .congr (hStep.andThen hOk (.of_shown (some r, e.next) ?_ rfl)) hSucc⟩
        exact fun _ => if_pos hBlocked
      · obtain ⟨events', hRest⟩ := ih e.next (some r)
        exact ⟨_, .congr (hStep.andThen hOk (hRest.congr fun h => if_neg hBlocked)) hSucc⟩
    · refine ⟨[], .of_shown (last, e) (fun h => ?_) rfl⟩
      rw [stepsFrom_succ]
      exact if_neg hPhase

theorem Call.exists_tells (call : Call) (e : Engine σ) :
    ∃ events, Tells call.answer e events := by
  cases call with
  | step => exact exists_tells_step e
  | resume v => exact exists_tells_resume e v
  | snapshot output => exact ⟨[], .of_shown (e.snapshot output) (fun _ => rfl) rfl⟩
  | runUntilBlocked maxSteps =>
    have hRun (h : History) := runUntilBlocked_eq (e.withHistory h) maxSteps
    obtain ⟨events, hSteps⟩ := exists_tells_stepsFrom maxSteps e none
    obtain ⟨shown, e', hOk⟩ := exists_stepsFrom maxSteps e none
    cases shown with
    | some r => exact ⟨_, .congr (hSteps.andThen hOk (.of_shown (r, e') (fun _ => rfl) rfl)) hRun⟩
    | none =>
      exact ⟨_, .congr (hSteps.andThen hOk (.of_shown (e'.snapshot none) (fun _ => rfl) rfl)) hRun⟩

/-- A call gives the same reply whatever the history is. What it records keeps to the protocol. -/
theorem Call.exists_recordAll (call : Call) (e : Engine σ) : ∃ events,
    (∀ h, call.reply (e.withHistory h) = call.reply e) ∧
    (∀ h, call.after (e.withHistory h) = (call.after e).withHistory (h.recordAll events)) ∧
    ∀ past, Recorded e.phase past → Recorded (call.after e).phase (past ++ events) := by
  obtain ⟨events, hTells⟩ := call.exists_tells e
  unfold reply after
  cases hAnswer : call.answer e with
  | ok shown =>
    refine ⟨events, fun h => ?_, fun h => ?_, fun past hPast => hTells.recorded hAnswer hPast⟩
    all_goals
      rw [hTells.alike, hAnswer]
      rfl
  | error refusal =>
    -- nothing is recorded
    refine ⟨[], fun h => ?_, fun h => ?_, fun past hPast => by rwa [List.append_nil]⟩
    all_goals
      rw [hTells.alike, hAnswer]
      rfl

-- ---------------------------------------------------------------------------
-- Calls in a row
-- ---------------------------------------------------------------------------

/-- Everything about an engine but its history. -/
def visible (e : Engine σ) : Engine σ := e.withHistory (.empty 0)

theorem transcript_withHistory (calls : List Call) : ∀ (e : Engine σ) (h : History),
    (transcript calls (e.withHistory h)).map (fun (reply, e') => (reply, e'.visible)) =
      (transcript calls e).map fun (reply, e') => (reply, e'.visible) := by
  induction calls with
  | nil => exact fun _ _ => rfl
  | cons call calls ih =>
    intro e h
    obtain ⟨events, hReply, hAfter, -⟩ := call.exists_recordAll e
    rw [transcript, transcript, List.map_cons, List.map_cons, hReply, hAfter, ih]
    rfl

/-- **An engine that is loaded again is as good as a new one.** Whatever it did before and whatever
it and the new one keep of their histories, calls in a row get the same replies from both, and
after each call both are the same but for their histories. -/
theorem transcript_reinitialize (e : Engine σ) (program : List Chunk) (stack : List Word)
    (historyLimit : Nat) (calls : List Call) :
    (e.reinitialize program stack).visible =
        (start program stack e.maxStackDepth historyLimit e.random).visible ∧
      (transcript calls (e.reinitialize program stack)).map
          (fun (reply, e') => (reply, e'.visible)) =
        (transcript calls (start program stack e.maxStackDepth historyLimit e.random)).map
          fun (reply, e') => (reply, e'.visible) :=
  -- the new engine is the loaded one with another history
  have hFresh := transcript_withHistory calls (e.reinitialize program stack) (.empty historyLimit)
  ⟨rfl, hFresh.symm⟩

/-- What calls in a row record, whatever history they are recorded in. -/
def Records (calls : List Call) (e : Engine σ) (trace : List Event) : Prop :=
  ∀ h, (afterCalls calls (e.withHistory h)).history = h.recordAll trace

theorem Records.unique {calls : List Call} {trace trace' : List Event} (h : Records calls e trace)
    (h' : Records calls e trace') : trace = trace' :=
  History.recordAll_inj fun history => (h history).symm.trans (h' history)

theorem exists_records (calls : List Call) : ∀ {e : Engine σ} {past : List Event},
    Recorded e.phase past → ∃ trace, Records calls e trace ∧
      Recorded (afterCalls calls e).phase (past ++ trace) := by
  induction calls with
  | nil => exact fun {_ past} hPast => ⟨[], fun _ => rfl, (List.append_nil past).symm ▸ hPast⟩
  | cons call calls ih =>
    intro e past hPast
    obtain ⟨events, -, hAfter, hRecorded⟩ := call.exists_recordAll e
    obtain ⟨trace, hRecords, hAll⟩ := ih (hRecorded past hPast)
    refine ⟨events ++ trace, fun h => ?_, ?_⟩
    · rw [History.recordAll_append, ← hRecords, ← hAfter]
      rfl
    · rw [← List.append_assoc]
      exact hAll

/-- **From loading on, the events keep to the protocol.** Calls in a row record one and the same
trace in every history. It begins a complete record, that is groups in a row and at most one
ending; a word is supplied right after it was asked for and nowhere else; nothing comes after a
halt or a fault; and the last event is a request exactly if the engine waits. -/
theorem trace_of_ready (hReady : e.phase = .ready) (calls : List Call) : ∃ trace,
    (∀ events, Records calls e events ↔ events = trace) ∧
    (∃ complete, Complete complete ∧ trace <+: complete) ∧
    trace.IsChain Follows ∧ (∀ v, trace.head? ≠ some (.inputSupplied v)) ∧
    (trace.getLast? = some .inputRequested ↔ (afterCalls calls e).phase = .awaitingInput) := by
  obtain ⟨trace, hRecords, hRecorded⟩ := exists_records calls (hReady ▸ Recorded.loaded)
  rw [List.nil_append] at hRecorded
  have hOnly (events : List Event) : Records calls e events ↔ events = trace :=
    ⟨fun h => h.unique hRecords, fun h => h ▸ hRecords⟩
  have hFirst (v : Word) : trace.head? ≠ some (.inputSupplied v) := fun hHead => by
    have hOpens := hRecorded.begun.first _ hHead
    cases hOpens
  exact ⟨trace, hOnly, hRecorded.exists_complete, hRecorded.begun.chain, hFirst,
    hRecorded.getLast?_eq_iff⟩

/-- A program that asks for a word has recorded the request when it waits. -/
theorem trace_of_ready_request : ∃ trace,
    Records [.step] (start [28398241] [] 1 0 [] : Engine (List Nat)) trace ∧
      trace.IsChain Follows ∧ trace.getLast? = some .inputRequested := by
  obtain ⟨trace, hOnly, -, hChain, -, hLast⟩ :=
    trace_of_ready (e := (start [28398241] [] 1 0 [] : Engine (List Nat))) rfl [.step]
  exact ⟨trace, (hOnly trace).mpr rfl, hChain, hLast.mpr (by decide +kernel)⟩

end Engine

end FactorMachine
