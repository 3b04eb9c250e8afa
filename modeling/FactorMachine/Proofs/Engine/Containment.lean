import FactorMachine.Proofs.Engine.Dispatch

/-!
# FactorMachine — a fault stays where it is

An instruction that faults has done no more than take words from the operand stack. Whatever it
would have done to the rest of the engine comes last, when nothing can go wrong any more, so the
program, the call stack and the printed words are as they were. The engine keeps the fault and
answers no further call.

Where the fault is met before dispatch, the instruction pointer is still at the instruction, and no
word is missing. Otherwise it is past the instruction, and the words that were popped are gone. Only
a factorization leaves something in their place, namely those of its results that there was room
for.

The building of a chunk is checked for words twice. It has no count if the stack is empty, and this
is seen before dispatch as for any other opcode; that it has not enough factors is seen later.

## Results

* `Instruction.keeps_rest`  — an instruction that breaks off leaves the rest of the engine alone.
* `brokenOff_of_error`      — where an instruction breaks off.
* `faults_contained`        — what a step or a word that ends in a fault has changed.
-/

namespace FactorMachine

open Operation

variable {σ : Type}

/-- A fault that is met before its instruction is dispatched. Too few words are, unless they are
factors of a chunk whose count was there. -/
def Fault.IsForemost (stack : List Word) : Fault → Prop
  | .undecodable _ _ | .notAnInstruction _ _ => True
  | .stackUnderflow _ op => op ≠ .buildChunk ∨ stack = []
  | _ => False

theorem Fault.not_foremost {stack : List Word} {fault : Fault} (h : fault.ofFetch = false) :
    ¬ fault.IsForemost stack := by
  cases fault with
  | stackUnderflow _ _ | notAnInstruction _ _ | undecodable _ _ => cases h
  | _ => exact id

-- ---------------------------------------------------------------------------
-- One instruction
-- ---------------------------------------------------------------------------

/-- An effect does not fail an engine. -/
theorem Effect.not_errored {e : Engine σ} (effect : Effect) (h : e.phase ≠ .errored) :
    (stateAfter (effect.perform.run e)).phase ≠ .errored := by
  rw [run_perform]
  cases effect with
  | await | halt => nofun
  | proceed | print v => exact h
  | jump target | call target | ret | poke target value =>
    simp only [outcome]
    repeat' split
    all_goals exact h

section Parts

variable {e e' : Engine σ} {address : Nat} {op : Opcode} {fault : Fault}

/-- Factors that could not be popped were short of words in the middle, or one of them was no
operand. -/
theorem popFactors_eq_error {count : Nat}
    (h : (popFactors address op count).run e = .error fault e') :
    (fault.ofFetch = true → fault = .stackUnderflow address op) ∧ e'.stack <:+ e.stack := by
  induction count generalizing e with
  | zero => cases h
  | succ count ih =>
    rw [popFactors] at h
    rcases run_bind_eq_error h with hIndex | ⟨i, e₁, hIndex, h₁⟩
    · obtain ⟨rfl, rfl⟩ := pop_eq_error hIndex
      exact ⟨fun _ => rfl, List.suffix_rfl⟩
    have hTop : e₁.stack <:+ e.stack := (pop_eq_ok hIndex).1 ▸ List.suffix_cons i e₁.stack
    rcases run_bind_eq_error h₁ with hExponent | ⟨d, e₂, hExponent, h₂⟩
    · obtain ⟨rfl, rfl⟩ := pop_eq_error hExponent
      exact ⟨fun _ => rfl, hTop⟩
    have hPair : e₂.stack <:+ e.stack :=
      ((pop_eq_ok hExponent).1 ▸ List.suffix_cons d e₂.stack : e₂.stack <:+ e₁.stack).trans hTop
    rcases run_bind_eq_error h₂ with hWord | ⟨index, e₃, hWord, h₃⟩
    · obtain ⟨rfl, rfl⟩ := toOperand_eq_error hWord
      exact ⟨fun hFetch => absurd hFetch Bool.false_ne_true, hPair⟩
    obtain ⟨-, -, rfl⟩ := toOperand_eq_ok hWord
    rcases run_bind_eq_error h₃ with hWord | ⟨exponent, e₄, hWord, h₄⟩
    · obtain ⟨rfl, rfl⟩ := toOperand_eq_error hWord
      exact ⟨fun hFetch => absurd hFetch Bool.false_ne_true, hPair⟩
    obtain ⟨-, -, rfl⟩ := toOperand_eq_ok hWord
    rcases run_bind_eq_error h₄ with hRest | ⟨rest, e₅, -, hDone⟩
    · obtain ⟨hFault, hSuffix⟩ := ih hRest
      exact ⟨hFault, hSuffix.trans hPair⟩
    · cases hDone

end Parts

variable [RandomSource σ] {e e' : Engine σ} {fault : Fault}

/-- An instruction that breaks off leaves everything as it was but the operand stack and the random
numbers. -/
theorem Operation.Instruction.keeps_rest {op : Opcode} {x : Operation σ (Option Word)}
    (hx : Instruction op x) : ∀ {e e' : Engine σ} {fault : Fault}, x.run e = .error fault e' →
      e' = { e with stack := e'.stack, random := e'.random } := by
  -- the effect comes last, so if it was reached nothing but it can have failed
  induction hx with
  | effect effect _ =>
    intro e e' fault h
    obtain ⟨-, rfl⟩ := Effect.eq_of_error h
    rfl
  | work hWork _ ih =>
    intro e e' fault h
    have hReworked := hWork.reworks e
    rcases run_bind_eq_error h with hFirst | ⟨a, e₁, hFirst, hRest⟩
    · rw [hFirst] at hReworked
      exact hReworked.same
    · rw [hFirst, stateAfter] at hReworked
      rw [ih a hRest, hReworked.same]

theorem Operation.Instruction.not_errored {op : Opcode} {x : Operation σ (Option Word)}
    (hx : Instruction op x) : ∀ {e : Engine σ}, e.phase ≠ .errored →
      (stateAfter (x.run e)).phase ≠ .errored := by
  induction hx with
  | effect effect _ => exact effect.not_errored
  | work hWork _ ih =>
    intro e h
    refine stateAfter_bind (P := fun e : Engine σ => e.phase ≠ .errored) ?_ fun a _ => ih a
    rw [(hWork.reworks e).same]
    exact h

theorem not_errored_executeNext (h : e.phase ≠ .errored) :
    (stateAfter (executeNext.run e)).phase ≠ .errored := by
  rw [executeNext_eq]
  cases e.fetch with
  | missing => exact nofun
  | degenerate | faulty fault => exact h
  | instruction op operand => exact (instruction_execute e.ip op operand).not_errored h

/-- A chunk that was not built has cost its count, and perhaps some of its factors. -/
theorem run_buildChunk_error {address : Nat} {operand : Option Nat} {v : Word} {rest : List Word}
    (hStack : e.stack = v :: rest)
    (h : (execute address .buildChunk operand).run e = .error fault e') :
    (fault.ofFetch = true → fault = .stackUnderflow address .buildChunk) ∧ e'.stack <:+ rest := by
  rw [execute_buildChunk_eq, run_bind_ok (run_pop address .buildChunk hStack)] at h
  rcases run_bind_eq_error h with hCount | ⟨pairs, e₁, hCount, h₁⟩
  · obtain ⟨rfl, rfl⟩ := toOperand_eq_error hCount
    exact ⟨nofun, List.suffix_rfl⟩
  obtain ⟨-, -, rfl⟩ := toOperand_eq_ok hCount
  rcases run_bind_eq_error h₁ with hShort | ⟨_, e₂, hEnough, h₂⟩
  · rw [requireWords_run] at hShort
    split at hShort <;> cases hShort
    exact ⟨fun _ => rfl, List.suffix_rfl⟩
  obtain rfl := requireWords_eq_ok hEnough
  rcases run_bind_eq_error h₂ with hFactors | ⟨fs, e₃, hFactors, h₃⟩
  · exact popFactors_eq_error hFactors
  obtain ⟨-, hWords, -⟩ := popFactors_eq_ok hFactors
  obtain ⟨hLate, hSuffix⟩ := needs_pushBuilt fs (Nat.zero_le _) h₃
  refine ⟨fun hEarly => absurd (hLate.symm.trans hEarly) Bool.false_ne_true, hSuffix.trans ?_⟩
  exact ⟨factorWords fs, hWords.symm⟩

-- ---------------------------------------------------------------------------
-- Where an instruction breaks off
-- ---------------------------------------------------------------------------

namespace Engine

/-- The factorization in front of an engine leaves those of its results that there is room for. -/
def LeavesFactors (e : Engine σ) (results rest : List Word) : Prop :=
  ∃ operand fs, e.fetch = .instruction .factorize operand ∧ Canonical fs ∧
    e.stack = (factorsNumber fs : Int) :: rest ∧
    results = ((countedWords fs).take (e.maxStackDepth - rest.length)).reverse

/-- The instruction in front of the first engine has broken off in the second one. -/
structure BrokenOff (e e' : Engine σ) (fault : Fault) : Prop where
  foremost : fault.IsForemost e.stack → e'.ip = e.ip ∧ e'.stack = e.stack
  later : ¬ fault.IsForemost e.stack → e'.ip = e.ip + 1 ∧ ∃ results rest,
    e'.stack = results ++ rest ∧ rest <:+ e.stack ∧ (results = [] ∨ e.LeavesFactors results rest)

omit [RandomSource σ] in
/-- What is wrong with an instruction that cannot be fetched is met before it is dispatched. -/
theorem foremost_of_fetch (h : e.fetch = .faulty fault) : fault.IsForemost e.stack := by
  unfold fetch at h
  split at h
  · cases h
  · split at h
    · cases h
      trivial
    · cases h
    · rename_i op operand _
      split at h
      · rename_i hShort
        cases h
        -- an opcode that pops one word misses it only on an empty stack
        by_cases hBuild : op = .buildChunk
        · subst hBuild
          exact .inr (List.length_eq_zero_iff.mp (Nat.lt_one_iff.mp hShort))
        · exact .inl hBuild
      · cases h
    · cases h
      trivial

/-- An instruction that was fetched breaks off past its cell, with words taken from the top. -/
theorem later_of_fetch {op : Opcode} {operand : Option Nat}
    (hFetch : e.fetch = .instruction op operand) (h : executeNext.run e = .error fault e') :
    ¬ fault.IsForemost e.stack ∧ ∃ results rest, e'.stack = results ++ rest ∧
      rest <:+ e.stack ∧ (results = [] ∨ e.LeavesFactors results rest) := by
  obtain ⟨-, -, -, hPops⟩ := decode_of_fetch hFetch
  rw [executeNext_of_fetch hFetch] at h
  by_cases hBuild : op = .buildChunk
  · subst hBuild
    obtain ⟨v, rest, hStack⟩ := List.exists_cons_of_length_pos hPops
    obtain ⟨hFault, hSuffix⟩ := run_buildChunk_error (e := e.after .buildChunk e.stack) hStack h
    refine ⟨?_, [], e'.stack, rfl, hStack ▸ hSuffix.trans (List.suffix_cons v rest), .inl rfl⟩
    cases hEarly : fault.ofFetch with
    | false => exact Fault.not_foremost hEarly
    | true =>
      rw [hFault hEarly, hStack]
      exact fun hForemost => hForemost.elim (absurd rfl) (List.cons_ne_nil v rest)
  by_cases hFactorize : op = .factorize
  · subst hFactorize
    obtain ⟨v, rest, hStack⟩ := List.exists_cons_of_length_pos hPops
    have hSuffix : rest <:+ e.stack := hStack ▸ List.suffix_cons v rest
    obtain ⟨hLate, hLeft | ⟨fs, hCanonical, rfl, hLeft⟩⟩ :=
      run_factorize_error (e := e.after .factorize e.stack) hStack h
    · exact ⟨Fault.not_foremost hLate, [], rest, hLeft, hSuffix, .inl rfl⟩
    · exact ⟨Fault.not_foremost hLate, _, rest, hLeft, hSuffix,
        .inr ⟨operand, fs, hFetch, hCanonical, hStack, rfl⟩⟩
  · have hNeeds : Needs op.pops (execute e.ip op operand : Operation σ (Option Word)) :=
      needs_execute e.ip operand hBuild hFactorize
    obtain ⟨hLate, hSuffix⟩ := hNeeds (e := e.after op e.stack) hPops h
    exact ⟨Fault.not_foremost hLate, [], e'.stack, rfl, hSuffix, .inl rfl⟩

/-- Where an instruction breaks off, and what it leaves alone. -/
theorem brokenOff_of_error (h : executeNext.run e = .error fault e') : e.BrokenOff e' fault ∧
    e'.memory = e.memory ∧ e'.callStack = e.callStack ∧ e'.printed = e.printed := by
  have hRun := h
  rw [executeNext_eq] at hRun
  cases hFetch : e.fetch with
  | missing | degenerate =>
    rw [hFetch] at hRun
    cases hRun
  | faulty fault' =>
    rw [hFetch] at hRun
    cases hRun
    have hForemost := foremost_of_fetch hFetch
    exact ⟨⟨fun _ => ⟨rfl, rfl⟩, fun hLate => absurd hForemost hLate⟩, rfl, rfl, rfl⟩
  | instruction op operand =>
    rw [hFetch] at hRun
    have hSame := (instruction_execute e.ip op operand).keeps_rest hRun
    obtain ⟨hLate, hStack⟩ := later_of_fetch hFetch h
    refine ⟨⟨fun hForemost => absurd hForemost hLate, fun _ => ⟨?_, hStack⟩⟩, ?_⟩
    · rw [hSame]
    · rw [hSame]
      exact ⟨rfl, rfl, rfl⟩

-- ---------------------------------------------------------------------------
-- Calls
-- ---------------------------------------------------------------------------

/-- A call to the first engine ended in a fault, which the second one keeps. Nothing else has
happened outside the instruction, and nothing will. -/
structure Contained (e : Engine σ) (r : StepResult) (e' : Engine σ) (fault : Fault) : Prop where
  program : e'.program = e.program
  calls : e'.callStack = e.callStack
  output : e'.outputLog = e.outputLog
  phase : e'.phase = .errored
  kept : e'.fault = some fault
  shown : r.fault = some fault
  step : e'.step = .error (.stopped .errored)
  resume : ∀ v, e'.resume v = .error (.notAwaitingInput .errored)
  stays : ∀ calls, afterCalls calls e' = e'

/-- An engine that has shown its fault is not changed any more. -/
theorem afterCalls_of_errored (hErrored : e.phase = .errored) (hSettled : e.Settled)
    (calls : List Call) : afterCalls calls e = e := by
  have hCall : ∀ call : Call, call.after e = e := by
    intro call
    cases call with
    | step =>
      have hRefused : Call.step.answer e = .error (.stopped .errored) := by
        simp only [Call.answer, Engine.step, hErrored]
      exact Call.after_of_refused hRefused
    | resume v =>
      have hRefused : (Call.resume v).answer e = .error (.notAwaitingInput .errored) := by
        simp [Call.answer, Engine.resume, hErrored]
      exact Call.after_of_refused hRefused
    | runUntilBlocked maxSteps =>
      have hSteps : e.stepsFrom maxSteps none = .ok (none, e) := by
        cases maxSteps with
        | zero => rfl
        | succ maxSteps =>
          rw [stepsFrom_succ, if_neg]
          rw [hErrored]
          nofun
      have hRun : (Call.runUntilBlocked maxSteps).answer e = .ok (e.snapshot none) := by
        rw [Call.answer, runUntilBlocked_eq, bind_ok hSteps]
      rw [Call.after_of_answer hRun]
      exact hSettled.snapshot none
    | snapshot output => exact hSettled.snapshot output
  induction calls with
  | nil => rfl
  | cons call calls ih =>
    show afterCalls calls (call.after e) = e
    rw [hCall, ih]

section Fail

variable {a : Engine σ} (hMemory : a.memory = e.memory) (hCalls : a.callStack = e.callStack)
  (hPrinted : a.printed = e.printed)
include hMemory hCalls hPrinted

/-- An engine that fails shows the fault and answers no further call. -/
theorem contained_fail (fault : Fault) :
    e.Contained ((a.fail fault).snapshot none).1 ((a.fail fault).snapshot none).2 fault where
  program := show a.memory.cells = e.memory.cells by rw [hMemory]
  calls := hCalls
  output := show a.outputLog = e.outputLog by rw [outputLog, hPrinted, outputLog]
  phase := rfl
  kept := rfl
  shown := rfl
  step := rfl
  resume _ := rfl
  stays := afterCalls_of_errored rfl (settled_snapshot _ none)

/-- An engine that was free to run and fails has broken off an instruction. -/
theorem exists_of_advance (hFree : a.phase ≠ .errored) (h : a.advance.2.phase = .errored) :
    ∃ fault, e.Contained a.advance.1 a.advance.2 fault ∧ a.BrokenOff a.advance.2 fault := by
  unfold advance at h ⊢
  cases hRun : executeNext.run a with
  | ok output b =>
    have hGood := not_errored_executeNext hFree
    rw [hRun] at h hGood
    exact absurd h hGood
  | error fault b =>
    obtain ⟨⟨hForemost, hLater⟩, hMemory', hCalls', hPrinted'⟩ := brokenOff_of_error hRun
    exact ⟨fault, contained_fail (hMemory'.trans hMemory) (hCalls'.trans hCalls)
      (hPrinted'.trans hPrinted) fault, hForemost, hLater⟩

end Fail

/-- **Faults are contained.** A step or a word that ends in a fault leaves the program, the call
stack and the output log as they were. The engine keeps the fault, and no call changes it any more.
A word that there is no room for leaves the instruction pointer and the operand stack alone too.
Otherwise they are compared with the engine just before the instruction, which has been given the
word. A fault that is met before dispatch leaves them alone. Past that the instruction pointer is
after the instruction, and the operand stack is what is left under some words, with results on top
only if it was a factorization. -/
theorem faults_contained (e : Engine σ) :
    (∀ r e', e.step = .ok (r, e') → e'.phase = .errored →
      ∃ fault, e.Contained r e' fault ∧ e.BrokenOff e' fault) ∧
    ∀ v r e', e.resume v = .ok (r, e') → e'.phase = .errored →
      ∃ fault, e.Contained r e' fault ∧
        if e.maxStackDepth ≤ e.stack.length then
          fault = .stackOverflow e.maxStackDepth ∧ e'.ip = e.ip ∧ e'.stack = e.stack
        else (e.supplied v).BrokenOff e' fault := by
  constructor
  · intro r e' hStep hErrored
    obtain ⟨-, hAdvance⟩ := step_eq_ok_iff.mp hStep
    have hBroken := exists_of_advance (e := e) (a := { e with phase := .running }) rfl rfl rfl nofun
    rw [hAdvance] at hBroken
    obtain ⟨fault, hContained, hBrokenOff⟩ := hBroken hErrored
    exact ⟨fault, hContained, hBrokenOff.foremost, hBrokenOff.later⟩
  · intro v r e' hResume hErrored
    have hAwaits := awaiting_of_resume hResume
    split
    · rename_i hFull
      rw [resume_full v hAwaits hFull, Except.ok.injEq] at hResume
      obtain ⟨rfl, rfl⟩ := Prod.mk.inj hResume
      exact ⟨.stackOverflow e.maxStackDepth,
        contained_fail (e := e) (a := { e.record (.inputSupplied v) with phase := .running })
          rfl rfl rfl _, rfl, rfl, rfl⟩
    · rename_i hRoom
      rw [resume_room v hAwaits (Nat.lt_of_not_le hRoom), Except.ok.injEq] at hResume
      have hBroken := exists_of_advance (e := e) (a := e.supplied v) rfl rfl rfl nofun
      rw [hResume] at hBroken
      exact hBroken hErrored

/-- The factors of eighteen do not all fit, and those that do are left. A word that does not fit
leaves nothing. -/
theorem faults_contained_overflow : ∃ e w : Engine (List Nat), e.stack = [18] ∧ w.stack = [7] ∧
    (∃ r e' fault, e.step = .ok (r, e') ∧ e'.stack = [1, 0, 2] ∧ e.Contained r e' fault ∧
      e.BrokenOff e' fault) ∧
    ∃ r w' fault, w.resume 5 = .ok (r, w') ∧ w.Contained r w' fault ∧ w'.stack = [7] := by
  have hWaits : (Call.after .step (start [28398241] [7] 1 0 [] : Engine (List Nat))).phase =
      .awaitingInput := by decide +kernel
  have hOverflow : (start [3418801] [18] 3 0 [] : Engine (List Nat)).next.phase = .errored := by
    decide +kernel
  obtain ⟨r, hStep, -⟩ := step_next (e := (start [3418801] [18] 3 0 [] : Engine (List Nat))) rfl
  have hResume := resume_full 5 hWaits (by decide +kernel)
  obtain ⟨fault, hContained, hBroken⟩ := (faults_contained _).1 _ _ hStep hOverflow
  obtain ⟨fault', hContained', hFull⟩ := (faults_contained _).2 _ _ _ hResume rfl
  rw [if_pos (by decide +kernel)] at hFull
  refine ⟨_, _, rfl, ?_, ⟨r, _, fault, hStep, by decide +kernel, hContained, hBroken⟩,
    _, _, fault', hResume, hContained', hFull.2.2.trans ?_⟩
  · decide +kernel
  · decide +kernel

/-- The building of a chunk on an empty stack is refused before dispatch, so the engine stays at the
instruction. -/
theorem empty_build_stays : ∃ r, ∃ e' : Engine (List Nat),
    (start [83521] [] 4 0 [] : Engine (List Nat)).step = .ok (r, e') ∧ e'.phase = .errored ∧
      e'.fault = some (.stackUnderflow 0 .buildChunk) ∧
      e'.ip ≠ (start [83521] [] 4 0 [] : Engine (List Nat)).ip + 1 := by
  obtain ⟨r, hStep, -⟩ := step_next (e := (start [83521] [] 4 0 [] : Engine (List Nat))) rfl
  exact ⟨r, _, hStep, by decide +kernel⟩

end Engine

end FactorMachine
