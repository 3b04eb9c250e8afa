import FactorMachine.Proofs.Engine.Stretch

/-!
# FactorMachine — calls to an engine

An engine moves only when it is called: `step` executes an instruction, and `resume` supplies
the word that the program waits for. Whoever runs it for longer makes these two calls over and
over, so what `Engine.Reaches` says is what any use of an engine can make of it.

A stretch is safe under calls. An engine that `Leads` to a wait still does after a step, and
a word supplied at a wait begins the next stretch.

## Results

* `Engine.Reaches.runUntilBlocked`, `Engine.Reaches.drive` — longer runs are calls in a row.
* `Terms.leads_resume`      — the stretch that a supplied word begins.
* `Terms.Leads.of_reaches`  — a property of all waits that every word keeps up holds of a whole
  run.
* `Terms.Leads.runUntilBlocked` — a run within a stretch ends at its wait or runs out of steps.
-/

namespace FactorMachine

open Operation

namespace Engine

variable {σ : Type}

-- ---------------------------------------------------------------------------
-- Results
-- ---------------------------------------------------------------------------

/-- Nothing was written since the program was last shown. -/
def Settled (e : Engine σ) : Prop := e.memory.dirty = false

theorem settled_start (program : List Chunk) (stack : List Word) (maxStackDepth historyLimit : Nat)
    (random : σ) : (start program stack maxStackDepth historyLimit random).Settled := rfl

theorem settled_reinitialize (e : Engine σ) (program : List Chunk) (stack : List Word) :
    (e.reinitialize program stack).Settled := rfl

theorem settled_snapshot (e : Engine σ) (output : Option Word) :
    (e.snapshot output).2.Settled := rfl

/-- An engine that has shown everything is not changed by showing it again. -/
theorem Settled.snapshot {e : Engine σ} (h : e.Settled) (output : Option Word) :
    (e.snapshot output).2 = e := by
  obtain ⟨⟨cells, dirty⟩, _, _, _, _, _, _, _, _, _⟩ := e
  obtain rfl : dirty = false := h
  rfl

/-- A result says how the engine stands. -/
structure Standing (e : Engine σ) (r : StepResult) : Prop where
  fault : r.fault = e.fault
  halted : r.halted = (e.phase == .halted)
  needsInput : r.needsInput = (e.phase == .awaitingInput)

theorem standing_snapshot (e : Engine σ) (output : Option Word) :
    (e.snapshot output).2.Standing (e.snapshot output).1 := ⟨rfl, rfl, rfl⟩

-- ---------------------------------------------------------------------------
-- The two calls
-- ---------------------------------------------------------------------------

variable [RandomSource σ]

theorem advance_eq (e : Engine σ) : ∃ output, ∃ e' : Engine σ, e.advance = e'.snapshot output := by
  unfold advance
  split
  · exact ⟨_, _, rfl⟩
  · exact ⟨_, _, rfl⟩

theorem settled_advance (e : Engine σ) : e.advance.2.Settled := by
  obtain ⟨output, e', h⟩ := e.advance_eq
  rw [h]
  exact settled_snapshot e' output

theorem standing_advance (e : Engine σ) : e.advance.2.Standing e.advance.1 := by
  obtain ⟨output, e', h⟩ := e.advance_eq
  rw [h]
  exact standing_snapshot e' output

/-- A step is possible in an engine that is free to run, and only there. -/
theorem step_eq_ok_iff {e e' : Engine σ} {r : StepResult} : e.step = .ok (r, e') ↔
    e.phase.canStep = true ∧ ({ e with phase := .running } : Engine σ).advance = (r, e') := by
  unfold step
  cases h : e.phase <;> simp [Phase.canStep]

theorem step_next {e : Engine σ} (hPhase : e.phase.canStep = true) :
    ∃ r, e.step = .ok (r, e.next) ∧ e.next.Standing r :=
  ⟨_, step_eq_ok_iff.mpr ⟨hPhase, rfl⟩, standing_advance _⟩

theorem eq_next_of_step {e e' : Engine σ} {r : StepResult} (h : e.step = .ok (r, e')) :
    e.phase.canStep = true ∧ e' = e.next := by
  obtain ⟨hPhase, hAdvance⟩ := step_eq_ok_iff.mp h
  refine ⟨hPhase, ?_⟩
  rw [next, hAdvance]

/-- The engine that has just been given a word. -/
def supplied (e : Engine σ) (v : Word) : Engine σ :=
  { e.record (.inputSupplied v) with phase := .running, stack := v :: e.stack }

theorem awaiting_of_resume {e e' : Engine σ} {v : Word} {r : StepResult}
    (h : e.resume v = .ok (r, e')) : e.phase = .awaitingInput := by
  unfold resume at h
  split at h
  · assumption
  · cases h

/-- A word that there is room for goes onto the stack before the next instruction. -/
theorem resume_room {e : Engine σ} (v : Word) (hAwaits : e.phase = .awaitingInput)
    (hRoom : e.stack.length < e.maxStackDepth) : e.resume v = .ok (e.supplied v).advance := by
  have hPush : (push v).run ({ e.record (.inputSupplied v) with phase := .running } : Engine σ) =
      .ok () (e.supplied v) := run_push_room v hRoom
  unfold resume
  rw [if_pos hAwaits]
  simp only [hPush]

theorem resume_full {e : Engine σ} (v : Word) (hAwaits : e.phase = .awaitingInput)
    (hFull : e.maxStackDepth ≤ e.stack.length) :
    e.resume v = .ok ((({ e.record (.inputSupplied v) with phase := .running } : Engine σ).fail
      (.stackOverflow e.maxStackDepth)).snapshot none) := by
  have hPush : (push v).run ({ e.record (.inputSupplied v) with phase := .running } : Engine σ) =
      .error (.stackOverflow e.maxStackDepth)
        { e.record (.inputSupplied v) with phase := .running } :=
    run_push_full v hFull
  unfold resume
  rw [if_pos hAwaits]
  simp only [hPush]

-- ---------------------------------------------------------------------------
-- Calls in a row
-- ---------------------------------------------------------------------------

/-- What calls can make of an engine. -/
inductive Reaches (e : Engine σ) : Engine σ → Prop
  | refl : Reaches e e
  | step {a b : Engine σ} {r : StepResult} : Reaches e a → a.step = .ok (r, b) → Reaches e b
  | resume {a b : Engine σ} {v : Word} {r : StepResult} :
      Reaches e a → a.resume v = .ok (r, b) → Reaches e b

theorem Reaches.settled {e a : Engine σ} (h : e.Reaches a) (hSettled : e.Settled) : a.Settled := by
  induction h with
  | refl => exact hSettled
  | step _ hStep _ =>
    obtain ⟨-, rfl⟩ := eq_next_of_step hStep
    exact settled_advance _
  | @resume a b v r _ hResume _ =>
    have hAwaits := awaiting_of_resume hResume
    -- a word that there is no room for makes the engine fail, and it shows that as well
    rcases Nat.lt_or_ge a.stack.length a.maxStackDepth with hRoom | hFull
    · rw [resume_room v hAwaits hRoom, Except.ok.injEq] at hResume
      have hAdvance := settled_advance (a.supplied v)
      rwa [hResume] at hAdvance
    · rw [resume_full v hAwaits hFull, Except.ok.injEq] at hResume
      have hSnapshot := settled_snapshot
        (({ a.record (.inputSupplied v) with phase := .running } : Engine σ).fail
          (.stackOverflow a.maxStackDepth)) none
      rwa [hResume] at hSnapshot

theorem Reaches.stepsFrom {e : Engine σ} {maxSteps : Nat} :
    ∀ {a b : Engine σ} {last shown : Option StepResult}, e.Reaches a →
      a.stepsFrom maxSteps last = .ok (shown, b) → e.Reaches b := by
  -- by induction on the steps that are left; each is a call
  induction maxSteps with
  | zero =>
    intro a b last shown hReaches h
    cases h
    exact hReaches
  | succ maxSteps ih =>
    intro a b last shown hReaches h
    unfold Engine.stepsFrom at h
    split at h
    · split at h
      · rename_i r a' hStep
        split at h
        · cases h
          exact hReaches.step hStep
        · exact ih (hReaches.step hStep) h
      · cases h
    · cases h
      exact hReaches

/-- A run to the next stop or wait is a sequence of steps. -/
theorem Reaches.runUntilBlocked {e a b : Engine σ} {maxSteps : Nat} {r : StepResult}
    (hReaches : e.Reaches a) (hSettled : e.Settled) (h : a.runUntilBlocked maxSteps = .ok (r, b)) :
    e.Reaches b := by
  unfold Engine.runUntilBlocked at h
  split at h
  · rename_i hSteps
    cases h
    exact hReaches.stepsFrom hSteps
  · rename_i a' hSteps
    have hThere := hReaches.stepsFrom hSteps
    -- no step was made, so the engine is only shown once more
    have hSame := (hThere.settled hSettled).snapshot none
    rw [Except.ok.injEq] at h
    rw [h] at hSame
    obtain rfl : b = a' := hSame
    exact hThere
  · cases h

theorem Reaches.driveFrom {ι : Type} [InputSource ι] {e : Engine σ} {maxSteps : Nat} :
    ∀ {a b : Engine σ} {last r : StepResult} {source source' : ι}, e.Reaches a →
      driveFrom maxSteps last a source = .ok (r, b, source') → e.Reaches b := by
  -- one case for each phase: two of them make a step, one supplies a word, two stop
  induction maxSteps with
  | zero =>
    intro a b last r source source' hReaches h
    cases h
    exact hReaches
  | succ maxSteps ih =>
    intro a b last r source source' hReaches h
    unfold FactorMachine.driveFrom at h
    split at h
    · split at h
      · rename_i hStep
        exact ih (hReaches.step hStep) h
      · cases h
    · split at h
      · rename_i hStep
        exact ih (hReaches.step hStep) h
      · cases h
    · split at h
      · cases h
        exact hReaches
      · split at h
        · rename_i hResume
          exact ih (hReaches.resume hResume) h
        · cases h
    · cases h
      exact hReaches
    · cases h
      exact hReaches

/-- A run across the waits is a sequence of steps and supplied words. -/
theorem Reaches.drive {ι : Type} [InputSource ι] {e a b : Engine σ} {maxSteps : Nat}
    {r : StepResult} {source source' : ι} (hReaches : e.Reaches a) (hSettled : e.Settled)
    (h : drive a source maxSteps = .ok (r, b, source')) : e.Reaches b := by
  have hSnapshot := (hReaches.settled hSettled).snapshot none
  unfold FactorMachine.drive at h
  refine Reaches.driveFrom (a := (a.snapshot none).2) ?_ h
  rwa [hSnapshot]

end Engine

-- ---------------------------------------------------------------------------
-- Stretches under calls
-- ---------------------------------------------------------------------------

namespace Terms

variable {σ : Type} [RandomSource σ] {t : Terms σ} {e : Engine σ}

theorem Leads.keeps (h : t.Leads e) : t.Keeps e := by
  cases h <;> assumption

theorem Leads.next (h : t.Leads e) (hPhase : e.phase.canStep = true) (hGoesOn : ¬ t.ends e) :
    t.Leads e.next := by
  cases h with
  | waiting hAwaits =>
    rw [hAwaits] at hPhase
    cases hPhase
  | faulted _ hErrored =>
    rw [hErrored] at hPhase
    cases hPhase
  | ended _ _ _ hEnds => exact absurd hEnds hGoesOn
  | step _ _ _ hNext => exact hNext

/-- At a wait the stretch is over. -/
theorem Leads.waits (h : t.Leads e) (hAwaits : e.phase = .awaitingInput) : t.waits e := by
  cases h with
  | waiting _ _ _ hWaits => exact hWaits
  | faulted _ hErrored =>
    rw [hErrored] at hAwaits
    cases hAwaits
  | ended hPhase | step hPhase =>
    rw [hAwaits] at hPhase
    cases hPhase

theorem Leads.not_halted (h : t.Leads e) : e.phase ≠ .halted := by
  intro hHalted
  cases h with
  | waiting hAwaits =>
    rw [hHalted] at hAwaits
    cases hAwaits
  | faulted _ hErrored =>
    rw [hHalted] at hErrored
    cases hErrored
  | ended hPhase | step hPhase =>
    rw [hHalted] at hPhase
    cases hPhase

theorem Leads.not_errored (h : t.Leads e) (hNever : ¬ t.mayFault) : e.phase ≠ .errored := by
  intro hErrored
  cases h with
  | waiting hAwaits =>
    rw [hErrored] at hAwaits
    cases hAwaits
  | faulted hMay => exact hNever hMay
  | ended hPhase | step hPhase =>
    rw [hErrored] at hPhase
    cases hPhase

theorem Leads.fault_eq_none (h : t.Leads e) (hNever : ¬ t.mayFault) : e.fault = none := by
  cases h with
  | faulted hMay => exact absurd hMay hNever
  | _ => assumption

/-- An engine within a stretch that does not wait is free to run. -/
theorem Leads.canStep (h : t.Leads e) (hNever : ¬ t.mayFault) (hAwaits : e.phase ≠ .awaitingInput) :
    e.phase.canStep = true := by
  cases h with
  | waiting hWaiting => exact absurd hWaiting hAwaits
  | faulted hMay => exact absurd hMay hNever
  | ended hPhase | step hPhase => exact hPhase

/-- A supplied word begins the next stretch. -/
theorem leads_resume {v : Word} {view : View σ} {address : Nat}
    (hAwaits : e.phase = .awaitingInput) (hShows : t.Shows view address e)
    (hRoom : t.Room view.stack.length) (hGoesOn : ¬ t.ends (e.supplied v))
    (next : t.From address { view with stack := v :: view.stack }) :
    ∃ r e', e.resume v = .ok (r, e') ∧ e'.Standing r ∧ e'.Settled ∧ t.Leads e' := by
  rcases Nat.lt_or_ge e.stack.length e.maxStackDepth with hLt | hFull
  · refine ⟨_, _, Engine.resume_room v hAwaits hLt, Engine.standing_advance _,
      Engine.settled_advance _, ?_⟩
    have hPushed : t.Shows { view with stack := v :: view.stack } address (e.supplied v) :=
      ⟨hShows.ip, congrArg (v :: ·) hShows.stack, hShows.calls, hShows.printed, hShows.random,
        hShows.depth, hShows.fault, hShows.cells, hShows.allowed⟩
    exact (next hRoom _ rfl hPushed).next rfl hGoesOn
  · have hFull' : t.limit ≤ e.stack.length := hShows.depth ▸ hFull
    have hMay : t.mayFault := by
      rw [hShows.stack] at hFull'
      exact hRoom.mayFault hFull'
    refine ⟨_, _, Engine.resume_full v hAwaits hFull, Engine.standing_snapshot _ none,
      Engine.settled_snapshot _ none, ?_⟩
    exact .faulted hMay rfl ⟨⟨hShows.depth, .inl hMay⟩, (hShows.keeps (.inl hMay)).memory⟩
      (t.faults_of_full _ hFull')

theorem leads_of_resume {v : Word} {view : View σ} {address : Nat} {e' : Engine σ} {r : StepResult}
    (hResume : e.resume v = .ok (r, e')) (hShows : t.Shows view address e)
    (hRoom : t.Room view.stack.length) (hGoesOn : ¬ t.ends (e.supplied v))
    (next : t.From address { view with stack := v :: view.stack }) : t.Leads e' := by
  obtain ⟨r', e'', hOk, -, -, hLeads⟩ :=
    leads_resume (Engine.awaiting_of_resume hResume) hShows hRoom hGoesOn next
  rw [hResume] at hOk
  cases hOk
  exact hLeads

/-- If a stretch ends only at waits and every word at a wait leads on, a whole run stays within the
terms. -/
theorem Leads.of_reaches (hGoesOn : ∀ a, ¬ t.ends a)
    (hResume : ∀ (a b : Engine σ) (v : Word) (r : StepResult), a.phase = .awaitingInput →
      t.waits a → a.resume v = .ok (r, b) → t.Leads b) {a : Engine σ}
    (hReaches : e.Reaches a) (h : t.Leads e) : t.Leads a := by
  -- an induction on the calls; within a stretch only a word at a wait needs an argument
  induction hReaches with
  | refl => exact h
  | step _ hStep ih =>
    obtain ⟨hPhase, rfl⟩ := Engine.eq_next_of_step hStep
    exact ih.next hPhase (hGoesOn _)
  | resume _ hSupplied ih =>
    have hAwaits := Engine.awaiting_of_resume hSupplied
    exact hResume _ _ _ _ hAwaits (ih.waits hAwaits) hSupplied

/-- Steps alone get to the end of a stretch: to the wait, to a fault if one is allowed, or to
another state that ends it. -/
theorem Leads.exists_end (h : t.Leads e) (P : Engine σ → Prop) (hHere : P e)
    (hStep : ∀ (a b : Engine σ) (r : StepResult), P a → a.step = .ok (r, b) → P b) :
    ∃ a, P a ∧ t.Keeps a ∧ ((a.phase = .awaitingInput ∧ t.waits a) ∨
      (t.mayFault ∧ a.phase = .errored ∧ t.faults a) ∨ (a.phase.canStep = true ∧ t.ends a)) := by
  induction h with
  | waiting hAwaits _ hKeeps hWaits => exact ⟨_, hHere, hKeeps, .inl ⟨hAwaits, hWaits⟩⟩
  | faulted hMay hErrored hKeeps hFaults =>
    exact ⟨_, hHere, hKeeps, .inr (.inl ⟨hMay, hErrored, hFaults⟩)⟩
  | ended hPhase _ hKeeps hEnds => exact ⟨_, hHere, hKeeps, .inr (.inr ⟨hPhase, hEnds⟩)⟩
  | step hPhase _ _ _ ih =>
    obtain ⟨r, hOk, -⟩ := Engine.step_next hPhase
    exact ih (hStep _ _ r hHere hOk)

/-- A run within a stretch makes only steps of it, and it stops early only at the wait. -/
theorem Leads.stepsFrom (hGoesOn : ∀ a, ¬ t.ends a) {maxSteps : Nat} :
    ∀ {e : Engine σ} {last : Option StepResult}, t.Leads e → e.Settled →
      (∀ r, last = some r → e.Standing r) →
      ∃ shown e', e.stepsFrom maxSteps last = .ok (shown, e') ∧ e'.Settled ∧ t.Leads e' ∧
        ∀ r, shown = some r → e'.Standing r := by
  -- the engine shows everything after each step, and the last result says how it stands
  induction maxSteps with
  | zero =>
    intro e last h hSettled hLast
    exact ⟨last, e, rfl, hSettled, h, hLast⟩
  | succ maxSteps ih =>
    intro e last h hSettled hLast
    unfold Engine.stepsFrom
    by_cases hPhase : e.phase.canStep = true
    · obtain ⟨r, hOk, hStanding⟩ := Engine.step_next hPhase
      have hSome : ∀ r', some r = some r' → e.next.Standing r' := by
        rintro r' ⟨⟩
        exact hStanding
      rw [if_pos hPhase, hOk]
      dsimp only
      split
      · exact ⟨_, _, rfl, Engine.settled_advance _, h.next hPhase (hGoesOn _), hSome⟩
      · exact ih (h.next hPhase (hGoesOn _)) (Engine.settled_advance _) hSome
    · rw [if_neg hPhase]
      exact ⟨last, e, rfl, hSettled, h, hLast⟩

theorem Leads.runUntilBlocked (h : t.Leads e) (hGoesOn : ∀ a, ¬ t.ends a) (hSettled : e.Settled)
    (maxSteps : Nat) : ∃ r e', e.runUntilBlocked maxSteps = .ok (r, e') ∧ e'.Settled ∧
      t.Leads e' ∧ e'.Standing r := by
  obtain ⟨shown, e', hSteps, hSettled', hLeads, hShown⟩ :=
    h.stepsFrom hGoesOn hSettled fun (r : StepResult) (hr : none = some r) => by cases hr
  unfold Engine.runUntilBlocked
  rw [hSteps]
  cases shown with
  | some r => exact ⟨r, e', rfl, hSettled', hLeads, hShown r rfl⟩
  | none =>
    have hSame := hSettled'.snapshot none
    refine ⟨(e'.snapshot none).1, e', congrArg Except.ok (Prod.ext rfl hSame), hSettled', hLeads,
      ?_⟩
    exact ⟨rfl, rfl, rfl⟩

end Terms

end FactorMachine
