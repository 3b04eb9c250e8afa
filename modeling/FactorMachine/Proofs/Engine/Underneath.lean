import FactorMachine.Proofs.Engine.Dialogue
import FactorMachine.Proofs.Engine.Parts

/-!
# FactorMachine — words underneath the stack

A program sees nothing of its operand stack but the words that it takes from the top. If there are
more words underneath, and the limit leaves room for as many more, then a program that met with no
fault still meets with none: it does the same, and the words underneath stay where they are.

A fault is excluded because it may be due to the height of the stack. An instruction that found
too few words without `base` may well find enough of them in `base`.

## Results

* `Instruction.framed` — an instruction that comes out well does so with words underneath.
* `transcript_under`   — calls in a row that meet with no fault go alike with words underneath.
-/

namespace FactorMachine

variable {σ : Type}

/-- The same engine with more words underneath its operand stack, and room for them. -/
def Engine.under (e : Engine σ) (base : List Word) : Engine σ :=
  { e with stack := e.stack ++ base, maxStackDepth := e.maxStackDepth + base.length }

/-- The same result with more words underneath the operand stack. -/
def StepResult.under (r : StepResult) (base : List Word) : StepResult :=
  { r with stack := r.stack ++ base }

-- ---------------------------------------------------------------------------
-- One instruction
-- ---------------------------------------------------------------------------

namespace Operation

variable {α β : Type}

/-- Whatever comes out well does so with words underneath. -/
def Framed (x : Operation σ α) : Prop :=
  ∀ {e e' : Engine σ} {a : α}, x.run e = .ok a e' →
    ∀ base, x.run (e.under base) = .ok a (e'.under base)

theorem Framed.bind {x : Operation σ α} {f : α → Operation σ β} (hx : x.Framed)
    (hf : ∀ a, (f a).Framed) : (x >>= f).Framed := by
  intro e e'' b hRun base
  obtain ⟨a, e', hFirst, hRest⟩ := run_bind_eq_ok hRun
  rw [run_bind_ok (hx hFirst base), hf a hRest base]

theorem OnOperands.framed [RandomSource σ] {x : Operation σ α} (hx : OnOperands x) :
    x.Framed := by
  induction hx with
  | andThen _ _ ihx ihf => exact Framed.bind ihx ihf
  | done a | drawBelow bound =>
    intro e e' a' hRun base
    cases hRun
    rfl
  | fault fault => exact nofun
  | push v =>
    intro e e' a hRun base
    rw [push_run] at hRun ⊢
    split at hRun
    · cases hRun
    · rename_i hRoom
      cases hRun
      refine if_neg ?_
      simpa [Engine.under] using hRoom
  | requireWords n fault =>
    intro e e' a hRun base
    rw [requireWords_run] at hRun ⊢
    split at hRun
    · cases hRun
    · rename_i hWords
      cases hRun
      refine if_neg ?_
      simp only [Engine.under, List.length_append]
      omega
  | pop address op =>
    intro e e' a hRun base
    rw [pop_run] at hRun ⊢
    cases hStack : e.stack <;> rw [hStack] at hRun <;> cases hRun
    simp [Engine.under, hStack]
  | top address op =>
    intro e e' a hRun base
    rw [top_run] at hRun ⊢
    cases hStack : e.stack <;> rw [hStack] at hRun <;> cases hRun
    simp [Engine.under, hStack]
  | swapTop address op =>
    intro e e' a hRun base
    rw [swapTop_run] at hRun ⊢
    match hStack : e.stack with
    | [] | [_] =>
      rw [hStack] at hRun
      cases hRun
    | b :: a :: rest =>
      rw [hStack] at hRun
      cases hRun
      simp [Engine.under, hStack]
  | toAddress v =>
    intro e e' a hRun base
    rw [toAddress_run] at hRun
    rw [toAddress_run, show (e.under base).memory = e.memory from rfl]
    cases hAddress : v.toNatBelow? e.memory.size <;> rw [hAddress] at hRun <;> cases hRun
    rfl
  | readCell address =>
    intro e e' a hRun base
    rw [readCell_run] at hRun
    rw [readCell_run, show (e.under base).memory = e.memory from rfl]
    cases hRead : e.memory.read? address <;> rw [hRead] at hRun <;> cases hRun
    rfl

end Operation

open Operation

theorem Effect.framed (effect : Effect) : (effect.perform : Operation σ (Option Word)).Framed := by
  intro e e' out hRun base
  rw [run_perform] at hRun ⊢
  cases effect with
  | proceed | print v | await | halt =>
    cases hRun
    rfl
  | jump target =>
    simp only [outcome] at hRun
    simp only [outcome, Engine.under]
    cases hTarget : target.toNatBelow? e.memory.size <;> rw [hTarget] at hRun <;> cases hRun
    rfl
  | call target =>
    simp only [outcome] at hRun
    simp only [outcome, Engine.under]
    cases hTarget : target.toNatBelow? e.memory.size with
    | none =>
      rw [hTarget] at hRun
      cases hRun
    | some a =>
      rw [hTarget] at hRun
      dsimp only at hRun ⊢
      split at hRun
      · cases hRun
      · rename_i hRoom
        cases hRun
        exact if_neg fun hFull => hRoom (le_trans (Nat.le_add_right _ _) hFull)
  | ret =>
    simp only [outcome] at hRun
    simp only [outcome, Engine.under]
    cases hCalls : e.callStack <;> rw [hCalls] at hRun <;> cases hRun
    rfl
  | poke target value =>
    simp only [outcome] at hRun
    simp only [outcome, Engine.under]
    cases hTarget : target.toNatBelow? e.memory.size <;>
      cases hValue : value.toNatBelow? Word.bound <;> rw [hTarget, hValue] at hRun <;> cases hRun
    rfl

variable [RandomSource σ]

/-- An instruction that comes out well does so with words underneath. -/
theorem Operation.Instruction.framed {op : Opcode} {x : Operation σ (Option Word)}
    (hx : Instruction op x) : x.Framed := by
  induction hx with
  | effect effect _ => exact effect.framed
  | work hWork _ ih => exact Framed.bind hWork.framed ih

namespace Engine

variable {e e' : Engine σ}

omit [RandomSource σ] in
/-- Whatever is fetched is fetched with words underneath. -/
theorem fetch_under (h : ∀ fault, e.fetch ≠ .faulty fault) (base : List Word) :
    (e.under base).fetch = e.fetch := by
  unfold fetch at h ⊢
  rw [show (e.under base).memory.read? (e.under base).ip = e.memory.read? e.ip from rfl]
  cases hRead : e.memory.read? e.ip with
  | none => rfl
  | some chunk =>
    rw [hRead] at h
    dsimp only at h ⊢
    cases hDecode : decode chunk with
    | error error =>
      rw [hDecode] at h
      exact absurd rfl (h _)
    | ok record =>
      rw [hDecode] at h
      cases record with
      | instruction op operand =>
        -- the operands are there, so they are with more words underneath
        dsimp only at h ⊢
        by_cases hShort : e.stack.length < op.pops
        · rw [if_pos hShort] at h
          exact absurd rfl (h _)
        · have hEnough : ¬ (e.under base).stack.length < op.pops := by
            simp only [under, List.length_append]
            omega
          rw [if_neg hShort, if_neg hEnough]
      | degenerate => rfl
      | _ => exact absurd rfl (h _)

theorem framed_executeNext : (executeNext : Operation σ (Option Word)).Framed := by
  intro e e' out hRun base
  rw [executeNext_eq] at hRun ⊢
  have hFetch : ∀ fault, e.fetch ≠ .faulty fault := by
    intro fault hFaulty
    rw [hFaulty] at hRun
    cases hRun
  rw [fetch_under hFetch]
  cases hHere : e.fetch with
  | missing | degenerate =>
    rw [hHere] at hRun
    cases hRun
    rfl
  | faulty fault => exact absurd hHere (hFetch fault)
  | instruction op operand =>
    rw [hHere] at hRun
    exact (instruction_execute e.ip op operand).framed hRun base

-- ---------------------------------------------------------------------------
-- Calls
-- ---------------------------------------------------------------------------

theorem advance_under (h : e.advance.2.phase ≠ .errored) (base : List Word) :
    (e.under base).advance = (e.advance.1.under base, e.advance.2.under base) := by
  unfold advance at h ⊢
  cases hRun : executeNext.run e with
  | ok out e' =>
    rw [framed_executeNext hRun base]
    rfl
  | error fault e' =>
    rw [hRun] at h
    exact absurd rfl h

/-- The call meets with no fault: it leaves an engine errored only if it was. -/
def NoFault {α : Type} (f : Engine σ → Except Refusal (α × Engine σ)) (e : Engine σ) : Prop :=
  ∀ {a e'}, f e = .ok (a, e') → e'.phase = .errored → e.phase = .errored

theorem step_under (hNoFault : NoFault step e) (base : List Word) :
    (e.under base).step = e.step.map fun (r, e') => (r.under base, e'.under base) := by
  by_cases hPhase : e.phase.canStep = true
  · have hStep : e.step = .ok ({ e with phase := .running } : Engine σ).advance :=
      step_eq_ok_iff.mpr ⟨hPhase, rfl⟩
    have hFree : ({ e with phase := .running } : Engine σ).advance.2.phase ≠ .errored :=
      fun hErrored => not_errored_of_canStep hPhase (hNoFault hStep hErrored)
    rw [hStep]
    exact step_eq_ok_iff.mpr ⟨hPhase, advance_under hFree base⟩
  · obtain ⟨refusal, hRefused⟩ := step_refused hPhase
    rw [hRefused rfl, hRefused (a := e.under base) rfl]
    rfl

theorem resume_under {v : Word} (hNoFault : NoFault (fun e => e.resume v) e) (base : List Word) :
    (e.under base).resume v = (e.resume v).map fun (r, e') => (r.under base, e'.under base) := by
  by_cases hAwaits : e.phase = .awaitingInput
  · have hSane : e.phase ≠ .errored := by
      rw [hAwaits]
      nofun
    rcases Nat.lt_or_ge e.stack.length e.maxStackDepth with hRoom | hFull
    · have hResume := resume_room v hAwaits hRoom
      have hRoom' : (e.under base).stack.length < (e.under base).maxStackDepth := by
        simpa [under] using hRoom
      rw [hResume, resume_room (e := e.under base) v hAwaits hRoom']
      have hFree : (e.supplied v).advance.2.phase ≠ .errored :=
        fun hErrored => hSane (hNoFault hResume hErrored)
      exact congrArg Except.ok (advance_under hFree base)
    · -- the word found no room, which is a fault
      exact absurd (hNoFault (resume_full v hAwaits hFull) rfl) hSane
  · unfold resume
    rw [if_neg hAwaits]
    exact if_neg hAwaits

/-- The first step of a run without a fault meets with none: the others could not repair it. -/
theorem NoFault.first_step {maxSteps : Nat} {last : Option StepResult} {r : StepResult}
    (h : NoFault (stepsFrom (maxSteps + 1) last) e) (hStep : e.step = .ok (r, e')) :
    e'.phase ≠ .errored := by
  intro hErrored
  have hSane := not_errored_of_canStep (eq_next_of_step hStep).1
  have hRun := stepsFrom_of_step hStep maxSteps last
  by_cases hBlocked : r.blocked = true
  · exact hSane (h (hRun.trans (if_pos hBlocked)) hErrored)
  · obtain ⟨shown, e'', hRest⟩ := exists_stepsFrom maxSteps e' (some r)
    have hStays := (Reaches.refl.stepsFrom hRest).errored hErrored
    exact hSane (h ((hRun.trans (if_neg hBlocked)).trans hRest) hStays)

theorem stepsFrom_under {maxSteps : Nat} : ∀ (e : Engine σ) (last : Option StepResult),
    NoFault (stepsFrom maxSteps last) e → ∀ base,
      (e.under base).stepsFrom maxSteps (last.map (·.under base)) =
        (e.stepsFrom maxSteps last).map fun (shown, e') =>
          (shown.map (·.under base), e'.under base) := by
  induction maxSteps with
  | zero => exact fun _ _ _ _ => rfl
  | succ maxSteps ih =>
    intro e last hNoFault base
    by_cases hPhase : e.phase.canStep = true
    · obtain ⟨r, hStep, -⟩ := step_next hPhase
      have hNext := hNoFault.first_step hStep
      have hStepUnder : (e.under base).step = .ok (r.under base, e.next.under base) := by
        rw [step_under (fun hOk hErrored => ?_) base, hStep]
        · rfl
        · rw [hStep] at hOk
          cases hOk
          exact absurd hErrored hNext
      have hRun := stepsFrom_of_step hStep maxSteps last
      rw [stepsFrom_of_step hStepUnder, hRun]
      by_cases hBlocked : r.blocked = true
      · rw [if_pos hBlocked, if_pos (show (r.under base).blocked = true from hBlocked)]
        rfl
      · rw [if_neg hBlocked, if_neg (show ¬ (r.under base).blocked = true from hBlocked)]
        refine ih e.next (some r) (fun hRest hErrored => ?_) base
        have hHere := hNoFault ((hRun.trans (if_neg hBlocked)).trans hRest) hErrored
        exact absurd hHere (not_errored_of_canStep hPhase)
    · rw [stepsFrom_succ, stepsFrom_succ, if_neg hPhase,
        if_neg (show ¬ (e.under base).phase.canStep = true from hPhase)]
      rfl

theorem runUntilBlocked_under {maxSteps : Nat}
    (hNoFault : NoFault (fun e => e.runUntilBlocked maxSteps) e) (base : List Word) :
    (e.under base).runUntilBlocked maxSteps =
      (e.runUntilBlocked maxSteps).map fun (r, e') => (r.under base, e'.under base) := by
  obtain ⟨shown, e', hSteps⟩ := exists_stepsFrom maxSteps e none
  have hRun := runUntilBlocked_eq e maxSteps
  rw [bind_ok hSteps] at hRun
  have hFree : NoFault (stepsFrom maxSteps none) e := by
    intro _ _ hOk hErrored
    rw [hSteps] at hOk
    cases hOk
    cases shown <;> exact hNoFault hRun hErrored
  have hSteps' : (e.under base).stepsFrom maxSteps none =
      .ok (shown.map (·.under base), e'.under base) := by
    have hUnder := stepsFrom_under e none hFree base
    rwa [hSteps] at hUnder
  rw [runUntilBlocked_eq, hRun, bind_ok hSteps']
  cases shown <;> rfl

theorem Call.answer_under (call : Call) (hNoFault : NoFault call.answer e) (base : List Word) :
    call.answer (e.under base) =
      (call.answer e).map fun (r, e') => (r.under base, e'.under base) := by
  cases call with
  | step => exact step_under hNoFault base
  | resume v => exact resume_under hNoFault base
  | runUntilBlocked maxSteps => exact runUntilBlocked_under hNoFault base
  | snapshot output => rfl

/-- **Words underneath ride along.** If calls in a row meet with no fault, then with any words
underneath the operand stack, and room for as many more, they get the same replies and leave the
same engines but for the words underneath. An errored engine stays so, hence there was no fault if
the engine is not errored in the end, unless it was in the beginning. -/
theorem transcript_under (base : List Word) {calls : List Call} {e : Engine σ}
    (hNoFault : (afterCalls calls e).phase = .errored → e.phase = .errored) :
    transcript calls (e.under base) =
      (transcript calls e).map fun (reply, e') => (reply.map (·.under base), e'.under base) := by
  induction calls generalizing e with
  | nil => rfl
  | cons call calls ih =>
    have hFirst : (call.after e).phase = .errored → e.phase = .errored := fun hErrored =>
      hNoFault (errored_afterCalls calls hErrored)
    have hAnswer := call.answer_under
      (fun hOk hErrored => hFirst (by rwa [Call.after_of_answer hOk])) base
    have hReply : call.reply (e.under base) = (call.reply e).map (·.under base) := by
      rw [Call.reply, Call.reply, hAnswer]
      cases call.answer e <;> rfl
    have hAfter : call.after (e.under base) = (call.after e).under base := by
      rw [Call.after, Call.after, hAnswer]
      cases call.answer e <;> rfl
    have hRest : (afterCalls calls (call.after e)).phase = .errored →
        (call.after e).phase = .errored := fun hErrored => call.errored_after (hNoFault hErrored)
    rw [transcript, transcript, List.map_cons, hReply, hAfter, ih hRest]

/-- A program that adds up two words leaves a third one alone, and then it stops. -/
theorem transcript_under_sum : ∃ e : Engine (List Nat),
    (afterCalls [.step, .step] e).stack = [3] ∧ (afterCalls [.step, .step] e).phase = .halted ∧
      transcript [.step, .step] (e.under [5]) = (transcript [.step, .step] e).map
        fun (reply, e') => (reply.map (·.under [5]), e'.under [5]) := by
  have hHalted : (afterCalls [.step, .step]
      (start [81] [2, 1] 2 0 [] : Engine (List Nat))).phase = .halted := by decide +kernel
  refine ⟨_, by decide +kernel, hHalted, transcript_under [5] fun hErrored => ?_⟩
  rw [hHalted] at hErrored
  cases hErrored

end Engine

end FactorMachine
