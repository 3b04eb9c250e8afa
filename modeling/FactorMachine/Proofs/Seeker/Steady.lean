import FactorMachine.Proofs.Engine.Calls
import FactorMachine.Proofs.Seeker.Built
import FactorMachine.Proofs.Seeker.Miss

/-!
# FactorMachine — a goal-seeker that always hits

As long as every attempt is a hit, no slot is ever rewritten. Then an iteration shows the attempt
itself, and its frame is as low as a frame can be. Such a goal-seeker goes from the wait for
feedback to the wait for a target, and from there to the wait for feedback on that target, for
ever.

## Results

* `from_zero_sure`, `from_zero_steady` — an iteration leads to the wait for feedback on its attempt.
* `leads_of_steady_hit`    — a hit leads to the wait for a target.
* `leads_of_target_sure`, `leads_of_steady_target` — a target leads to the wait for feedback on it.
-/

namespace FactorMachine

/-- The stretch to a wait of some kind, with no fault on the way. -/
def Watch.sure {σ : Type} (depth : Nat) (waits : Engine σ → Prop) : Watch σ where
  __ := Watch.idle depth
  mayFault := False
  waits := waits

namespace Seeker

open Terms

/-- No slot holds anything but no operation. -/
def Contents.Steady (m : Contents) : Prop := ∀ a, m.slots a = .nop

section Frames

variable {l : Layout} {m : Contents}

theorem shapeFrom_steady (hSteady : m.Steady) (s : Shape) (first count : Nat) :
    shapeFrom m.slots s first count = s := by
  induction count generalizing first with
  | zero => rfl
  | succ count ih =>
    rw [shapeFrom_succ, hSteady first]
    exact ih _

theorem shape_steady (hSteady : m.Steady) : l.shape m = ⟨0, l.config.slotCount⟩ :=
  shapeFrom_steady hSteady _ _ _

theorem pushes_steady (hSteady : m.Steady) : l.pushes m = 0 := by
  refine List.countP_eq_zero.mpr fun a _ => ?_
  rw [hSteady a]
  decide

theorem leftOver_steady (hSteady : m.Steady) (base : List Word) : l.leftOver m base = base := by
  unfold Layout.leftOver
  rw [shape_steady hSteady, if_neg]
  -- with nothing above the attempt it is not compared with the marker
  rintro ⟨hAbove, -⟩
  exact Nat.lt_irrefl 0 hAbove

end Frames

variable {σ : Type} [RandomSource σ] {l : Layout} {depth : Nat} {m : Contents}
  {printed : List Word} {random : σ} {a b : Engine σ} {r : StepResult}

/-- The stretch to the wait for feedback on an attempt that has just been printed. -/
def Layout.steadyFeedback (σ : Type) (l : Layout) (depth attempt : Nat) : Watch σ where
  __ := Watch.idle depth
  mayFault := False
  waits e := e.printed.head? = some (attempt : Int) ∧ ∃ m printed random, l.Valid m ∧ m.Steady ∧
    l.AtFeedback (.idle depth) m [] printed random e

/-- The stretch to the wait for a target. -/
def Layout.steadyTarget (σ : Type) (l : Layout) (depth : Nat) : Watch σ where
  __ := Watch.idle depth
  mayFault := False
  waits e := ∃ m printed random, l.Valid m ∧ m.Steady ∧
    l.AtTarget (.idle depth) m [] printed random e

/-- An iteration leads to a wait, where the attempt has just been printed. -/
theorem from_zero_sure {waits : Engine σ → Prop} (hValid : l.Valid m) (hSteady : m.Steady)
    (hDepth : l.config.slotCount + 8 ≤ depth) (printed : List Word) (random : σ)
    (hWaits : ∀ e : Engine σ, e.printed.head? = some (m.attempt : Int) →
      l.AtFeedback (.idle depth) m [] printed random e → waits e) :
    (l.terms (.sure depth waits)).From 0 ⟨l.picture m,
      List.replicate l.config.slotCount 0 ++ [(l.config.frameMarker : Int)], [], printed,
        random⟩ := by
  have hPushes := pushes_steady (l := l) hSteady
  refine from_iteration hValid (.inr ?_) fun e _ hAt => hWaits e ?_ (hAt.of_depth rfl)
  · show l.config.slotCount + l.pushes m + 2 + 0 < depth
    omega
  · -- nothing is above the attempt, so it is the word that was printed
    rw [hAt.printed, shape_steady hSteady]
    rfl

/-- An iteration leads to the wait for feedback on its attempt. -/
theorem from_zero_steady (hValid : l.Valid m) (hSteady : m.Steady)
    (hDepth : l.config.slotCount + 8 ≤ depth) (printed : List Word) (random : σ) :
    (l.terms (l.steadyFeedback σ depth m.attempt)).From 0 ⟨l.picture m,
      List.replicate l.config.slotCount 0 ++ [(l.config.frameMarker : Int)], [], printed,
        random⟩ :=
  from_zero_sure hValid hSteady hDepth printed random fun _ hPrinted hAt =>
    ⟨hPrinted, m, printed, random, hValid, hSteady, hAt⟩

/-- A hit leads to the wait for a target. -/
theorem leads_of_steady_hit (hValid : l.Valid m) (hSteady : m.Steady)
    (hDepth : l.config.slotCount + 8 ≤ depth) (hAwaits : a.phase = .awaitingInput)
    (hAt : l.AtFeedback (.idle depth) m [] printed random a) :
    ∃ r b, a.resume l.protocol.successFeedback = .ok (r, b) ∧ b.Standing r ∧ b.Settled ∧
      (l.terms (l.steadyTarget σ depth)).Leads b := by
  have hPushes := pushes_steady (l := l) hSteady
  have hHeight := length_frame (l := l) m []
  rw [List.length_nil] at hHeight
  have hHere : l.AtFeedback (l.steadyTarget σ depth) m [] printed random a := hAt.of_depth rfl
  have hLast : (l.terms (l.steadyTarget σ depth)).Room (l.config.slotCount + l.pushes m + 3) :=
    .inr (by show _ < depth; omega)
  refine leads_resume hAwaits hHere (hLast.mono (Nat.le_succ_of_le hHeight)) id ?_
  refine from_feedback_hit hValid hLast fun e _ hThere => ?_
  rw [leftOver_steady hSteady] at hThere
  exact ⟨_, _, _, hValid.store .failures (by decide), hSteady, hThere.of_depth rfl⟩

/-- A target leads to a wait, where it has just been printed. -/
theorem leads_of_target_sure {waits : Engine σ → Prop} {target : Nat} (hValid : l.Valid m)
    (hSteady : m.Steady) (hDepth : l.config.slotCount + 8 ≤ depth) (hTarget : target < primeCount)
    (hAwaits : a.phase = .awaitingInput) (hAt : l.AtTarget (.idle depth) m [] printed random a)
    (hWaits : ∀ e : Engine σ, e.printed.head? = some (target : Int) →
      l.AtFeedback (.idle depth) (l.retarget m target) [] printed random e → waits e) :
    ∃ r b, a.resume target = .ok (r, b) ∧ b.Standing r ∧ b.Settled ∧
      (l.terms (.sure depth waits)).Leads b := by
  have hHere : l.AtTarget (.sure depth waits) m [] printed random a := hAt.of_depth rfl
  have hLast : (l.terms (.sure depth waits)).Room (l.config.slotCount + 7) :=
    .inr (by show _ < depth; omega)
  refine leads_resume hAwaits hHere (hLast.mono (Nat.zero_le _)) id ?_
  refine from_target hValid (.inr ⟨target, hTarget, rfl⟩)
    (hLast.mono (show 0 + 4 ≤ l.config.slotCount + 7 by omega))
    (hLast.mono (show 0 + 1 + l.config.slotCount ≤ l.config.slotCount + 7 by omega))
    fun n hn hSame => ?_
  obtain rfl : target = n := Int.ofNat_inj.mp hSame
  exact from_zero_sure (m := l.retarget m target) (Layout.Valid.retarget hValid hn) hSteady hDepth
    _ _ hWaits

/-- A target leads to the wait for feedback on it. -/
theorem leads_of_steady_target {target : Nat} (hValid : l.Valid m) (hSteady : m.Steady)
    (hDepth : l.config.slotCount + 8 ≤ depth) (hTarget : target < primeCount)
    (hAwaits : a.phase = .awaitingInput)
    (hAt : l.AtTarget (.idle depth) m [] printed random a) :
    ∃ r b, a.resume target = .ok (r, b) ∧ b.Standing r ∧ b.Settled ∧
      (l.terms (l.steadyFeedback σ depth target)).Leads b :=
  leads_of_target_sure hValid hSteady hDepth hTarget hAwaits hAt fun _ hPrinted hThere =>
    ⟨hPrinted, _, _, _, hValid.retarget hTarget, hSteady, hThere⟩

end Seeker

end FactorMachine
