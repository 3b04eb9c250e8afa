import FactorMachine.Proofs.Engine.Steps

/-!
# FactorMachine — what comes of a word

An engine that waits is given a word and then makes steps, for as long as it can. What comes of it
are the engines on the way and the one where it stops.

A stretch that ends with a fault only where the stack is full is one that the engine gets through
if the stack never is. And if the stretch has no fault at all although the stack is kept below the
limit, then the stack is never full: this is how the condition is met.

## Results

* `Terms.Leads.steps`       — steps do not leave a stretch before its end.
* `Terms.exists_comesTo`    — a stack that is never full gets an engine to the end of a stretch.
* `Terms.Leads.staysBelow`  — a stack that is kept below the limit is never full.
-/

namespace FactorMachine

variable {σ : Type} [RandomSource σ]

namespace Engine

/-- The engines that come of one that is given a word: it resumes, and makes steps. -/
def ComesTo (e : Engine σ) (v : Word) (a : Engine σ) : Prop :=
  ∃ r b n, e.resume v = .ok (r, b) ∧ b.steps n = .ok a

/-- From the word on to where the engine stops, its operand stack does not reach the limit. -/
def StaysBelow (e : Engine σ) (v : Word) : Prop :=
  ∀ a, e.ComesTo v a → a.stack.length < a.maxStackDepth

theorem steps_succ_of_step {e a b : Engine σ} {n : Nat} {r : StepResult} (h : e.steps n = .ok a)
    (hStep : a.step = .ok (r, b)) : e.steps (n + 1) = .ok b := by
  rw [steps_trans, h]
  show (a.step >>= fun shown => shown.2.steps 0) = .ok b
  rw [hStep]
  rfl

/-- Steps are calls. -/
theorem Reaches.steps {e a b : Engine σ} {n : Nat} (h : e.Reaches a) (hSteps : a.steps n = .ok b) :
    e.Reaches b := by
  induction n generalizing a with
  | zero =>
    cases hSteps
    exact h
  | succ n ih =>
    unfold Engine.steps at hSteps
    cases hStep : a.step with
    | error refusal =>
      rw [hStep] at hSteps
      cases hSteps
    | ok shown =>
      rw [hStep] at hSteps
      exact ih (h.step (r := shown.1) (b := shown.2) hStep) hSteps

end Engine

/-- A stretch that may end with a fault where the stack is full, and with no other. -/
def Watch.guarded (σ : Type) (depth : Nat) : Watch σ where
  __ := Watch.idle depth
  waits _ := False
  faults e := depth ≤ e.stack.length
  faults_of_full _ h := h

namespace Terms

variable {t : Terms σ} {e a b : Engine σ} {v : Word} {r : StepResult}

/-- Steps do not leave a stretch that ends with a wait or a fault. -/
theorem Leads.steps (hGoesOn : ∀ a, ¬ t.ends a) {n : Nat} (h : t.Leads e)
    (hSteps : e.steps n = .ok a) : t.Leads a := by
  induction n generalizing e with
  | zero =>
    cases hSteps
    exact h
  | succ n ih =>
    unfold Engine.steps at hSteps
    cases hStep : e.step with
    | error refusal =>
      rw [hStep] at hSteps
      cases hSteps
    | ok shown =>
      obtain ⟨hPhase, hNext⟩ : e.phase.canStep = true ∧ shown.2 = e.next :=
        Engine.eq_next_of_step hStep
      rw [hStep] at hSteps
      exact ih (hNext ▸ h.next hPhase (hGoesOn e)) hSteps

/-- Steps get to where a stretch ends. -/
theorem Leads.exists_steps (h : t.Leads e) : ∃ n a, e.steps n = .ok a ∧ t.Keeps a ∧
    ((a.phase = .awaitingInput ∧ t.waits a) ∨ (t.mayFault ∧ a.phase = .errored ∧ t.faults a) ∨
      (a.phase.canStep = true ∧ t.ends a)) := by
  obtain ⟨a, ⟨n, hSteps⟩, hEnd⟩ := h.exists_end (fun a => ∃ n, e.steps n = .ok a) ⟨0, rfl⟩
    fun _ _ _ ⟨n, hSteps⟩ hStep => ⟨n + 1, Engine.steps_succ_of_step hSteps hStep⟩
  exact ⟨n, a, hSteps, hEnd⟩

/-- What comes of a word that begins a stretch is within the stretch. -/
theorem Leads.of_comesTo (hGoesOn : ∀ a, ¬ t.ends a) (hResume : e.resume v = .ok (r, b))
    (h : t.Leads b) (hComes : e.ComesTo v a) : t.Leads a := by
  obtain ⟨r', b', n, hResume', hSteps⟩ := hComes
  rw [hResume] at hResume'
  cases hResume'
  exact h.steps hGoesOn hSteps

/-- If the stack is never full, and nothing else is a fault, the end of the stretch is reached. -/
theorem exists_comesTo (hFull : ∀ a, t.faults a → t.limit ≤ a.stack.length)
    (hResume : e.resume v = .ok (r, b)) (hLeads : t.Leads b) (hBelow : e.StaysBelow v) :
    ∃ a, e.ComesTo v a ∧
      ((a.phase = .awaitingInput ∧ t.waits a) ∨ (a.phase.canStep = true ∧ t.ends a)) := by
  obtain ⟨n, a, hSteps, hKeeps, hWaits | ⟨-, -, hFaults⟩ | hEnds⟩ := hLeads.exists_steps
  · exact ⟨a, ⟨r, b, n, hResume, hSteps⟩, .inl hWaits⟩
  · have hLess := hBelow a ⟨r, b, n, hResume, hSteps⟩
    rw [hKeeps.depth] at hLess
    exact absurd hLess (Nat.not_lt.mpr (hFull a hFaults))
  · exact ⟨a, ⟨r, b, n, hResume, hSteps⟩, .inr hEnds⟩

/-- A stretch without faults that is kept below the limit shows that the stack is never full. -/
theorem Leads.staysBelow (hGoesOn : ∀ a, ¬ t.ends a) (hNever : ¬ t.mayFault)
    (hLess : t.depth < t.limit) (hResume : e.resume v = .ok (r, b)) (h : t.Leads b) :
    e.StaysBelow v := by
  intro a hComes
  have hKeeps := (h.of_comesTo hGoesOn hResume hComes).keeps
  rw [hKeeps.depth]
  exact Nat.lt_of_le_of_lt (hKeeps.height.resolve_left hNever) hLess

end Terms

end FactorMachine
