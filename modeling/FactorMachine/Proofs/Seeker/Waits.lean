import FactorMachine.Proofs.Engine.Resumption
import FactorMachine.Proofs.Seeker.Intact

/-!
# FactorMachine — the two waits of a goal-seeker

A goal-seeker asks for input at two places, one before its success path and one on it. Which of
the two it is at shows in its address alone.

## Results

* `GoalSeeker.AtMainInput`, `GoalSeeker.AtSuccessInput` — the two waits.
* `atMainInput_of_atFeedback`, `atSuccessInput_of_atTarget` — which wait an engine is at.
* `exists_wait` — with room for its frame, an iteration gets to its wait.
-/

namespace FactorMachine

-- ---------------------------------------------------------------------------
-- The two waits of a program
-- ---------------------------------------------------------------------------

/-- The engine waits, and the instruction that asked for input stands between two addresses. -/
def Engine.WaitsBetween {σ : Type} (e : Engine σ) (first last : Nat) : Prop :=
  e.phase = .awaitingInput ∧ ∃ address, first ≤ address ∧ address < last ∧ e.ip = address + 1 ∧
    DecodesTo e.program address (.ofOpcode .input)

namespace GoalSeeker

variable {σ : Type} (s : GoalSeeker) (e : Engine σ)

/-- The engine waits before the success path. -/
def AtMainInput : Prop :=
  ∃ success, s.labels.lookup Seeker.successLabel = some success ∧ e.WaitsBetween 0 success

/-- The engine waits on the success path. -/
def AtSuccessInput : Prop :=
  ∃ success failure, s.labels.lookup Seeker.successLabel = some success ∧
    s.labels.lookup Seeker.failureLabel = some failure ∧ e.WaitsBetween success failure

end GoalSeeker

namespace Seeker

open Statement Terms

section Waits

variable {l : Layout} {seeker : GoalSeeker} {target : Nat}

/-- Ten cells of the success path come before its wait. -/
theorem length_successPart (c : SeekerConfig) : 10 < (cellStatements (successPart c)).length := by
  simp [successPart, callTo, storeCell, ops, cellStatements, List.filter_cons, Statement.makesCell]

theorem Layout.success_lt_failure (l : Layout) :
    l.config.slotCount + 19 < l.linking.label failureLabel := by
  obtain ⟨rest, hSplit⟩ : ∃ rest, body l.config l.protocol l.selected.length =
      ((ops [.dup, .print, .input] ++ [.push l.protocol.successFeedback, .op .compareEq] ++
        branchIfFalse failureLabel) ++ successPart l.config) ++ .label failureLabel :: rest :=
    ⟨_, by simp only [body, failurePart, List.append_assoc, List.cons_append]; rfl⟩
  have hShow : (cellStatements (ops [.dup, .print, .input] ++
      [.push l.protocol.successFeedback, .op .compareEq] ++ branchIfFalse failureLabel)).length =
        8 := rfl
  have hSuccess := length_successPart l.config
  rw [l.label_body _ _ _ hSplit, cellStatements_append, List.length_append, hShow]
  omega

theorem Layout.text_mainInput (l : Layout) :
    l.text (l.config.slotCount + 3) = some (.ofOpcode .input) := by
  obtain ⟨hCode, -⟩ := l.placed_parts (σ := Unit) (.idle 0)
  exact hCode.2.2.1

theorem Layout.text_successInput (l : Layout) :
    l.text (l.config.slotCount + 19) = some (.ofOpcode .input) := by
  obtain ⟨-, -, hCode, -⟩ := l.placed_parts (σ := Unit) (.idle 0)
  simp only [successPart, callTo, storeCell, ops, List.map_cons, List.append_assoc,
    List.cons_append, List.nil_append] at hCode
  exact hCode.2.2.2.2.2.2.2.2.2.2.2.1

variable {σ : Type} {m : Contents} {w : Watch σ} {base printed : List Word} {random : σ}
  {e : Engine σ}

/-- A wait where the program has just asked for feedback. -/
theorem atMainInput_of_ip (h : l.Describes seeker target) (hAwaits : e.phase = .awaitingInput)
    (hIp : e.ip = l.config.slotCount + 4)
    (hCell : DecodesTo e.program (l.config.slotCount + 3) (.ofOpcode .input)) :
    seeker.AtMainInput e ∧ ¬ seeker.AtSuccessInput e := by
  refine ⟨⟨_, h.lookup_success, hAwaits, _, Nat.zero_le _, by omega, hIp, hCell⟩, ?_⟩
  rintro ⟨success, failure, hSuccess, -, -, address, hFirst, -, hAfter, -⟩
  -- the address is before the success path
  rw [h.lookup_success, Option.some.injEq] at hSuccess
  omega

/-- A wait where the program has just asked for a target. -/
theorem atSuccessInput_of_ip (h : l.Describes seeker target) (hAwaits : e.phase = .awaitingInput)
    (hIp : e.ip = l.config.slotCount + 20)
    (hCell : DecodesTo e.program (l.config.slotCount + 19) (.ofOpcode .input)) :
    seeker.AtSuccessInput e ∧ ¬ seeker.AtMainInput e := by
  have hFailure := l.success_lt_failure
  refine ⟨⟨_, _, h.lookup_success, h.lookup_label (by omega), hAwaits, _, by omega, hFailure, hIp,
    hCell⟩, ?_⟩
  rintro ⟨success, hSuccess, -, address, -, hLast, hAfter, -⟩
  rw [h.lookup_success, Option.some.injEq] at hSuccess
  omega

theorem atMainInput_of_atFeedback (h : l.Describes seeker target) (hValid : l.Valid m)
    (hAwaits : e.phase = .awaitingInput) (hAt : l.AtFeedback w m base printed random e) :
    seeker.AtMainInput e ∧ ¬ seeker.AtSuccessInput e :=
  atMainInput_of_ip h hAwaits hAt.ip
    (decodesTo_of_holds hValid hAt.cells (Layout.picture_of_text m l.text_mainInput))

theorem atSuccessInput_of_atTarget (h : l.Describes seeker target) (hValid : l.Valid m)
    (hAwaits : e.phase = .awaitingInput) (hAt : l.AtTarget w m base printed random e) :
    seeker.AtSuccessInput e ∧ ¬ seeker.AtMainInput e :=
  atSuccessInput_of_ip h hAwaits hAt.ip
    (decodesTo_of_holds hValid hAt.cells (Layout.picture_of_text m l.text_successInput))

/-- With room for its frame an iteration gets to its request for feedback. -/
theorem exists_wait [RandomSource σ] {depth : Nat} (hValid : l.Valid m)
    (hRoom : l.config.slotCount + l.pushes m + 3 ≤ depth) (hFree : e.phase.canStep = true)
    (hShows : (l.terms (.idle depth)).Shows ⟨l.picture m, List.replicate l.config.slotCount 0 ++
      [(l.config.frameMarker : Int)], [], printed, random⟩ 0 e) :
    ∃ n a, e.steps n = .ok a ∧ a.phase = .awaitingInput ∧
      l.AtFeedback (.idle depth) m [] printed random a := by
  let w : Watch σ :=
    { Watch.idle depth with
      mayFault := False, waits := l.AtFeedback (.idle depth) m [] printed random }
  have hFits : l.config.slotCount + 1 ≤ depth := by omega
  have hHeight : (l.terms w).Room (l.config.slotCount + l.pushes m + 2 + 0) := .inr hRoom
  have hFrom : (l.terms w).From 0 ⟨l.picture m, List.replicate l.config.slotCount 0 ++
      [(l.config.frameMarker : Int)], [], printed, random⟩ :=
    from_iteration hValid hHeight fun _ _ hAt => hAt.of_depth rfl
  have hLeads := hFrom (Layout.fits_start hFits) e hFree (Layout.shows_of_depth hShows rfl)
  obtain ⟨n, a, hSteps, -, hWait | ⟨hMay, -⟩ | ⟨-, hEnds⟩⟩ := hLeads.exists_steps
  · exact ⟨n, a, hSteps, hWait⟩
  · exact hMay.elim
  · exact hEnds.elim

end Waits

end Seeker

end FactorMachine
