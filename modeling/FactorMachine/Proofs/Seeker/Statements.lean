import FactorMachine.Proofs.Assembly.Feasible
import FactorMachine.Proofs.Seeker.Built
import FactorMachine.Proofs.Text.Numeral

/-!
# FactorMachine — the statements of a goal-seeker can be assembled

The statements of a goal-seeker depend on its configuration, on the target, and on the number of
slots that it may rewrite: for each of these but the last there is a label to skip it. So the labels
are different in number from program to program, and a reference has to be found among them however
many there are. What can go wrong beside that is a number that is too large to be pushed, and a
program that is too long.

Between the slots and the data cells there are instructions only. `IsText` says this together with
what their encoding and their references need, part by part.

## Results

* `labelNames_statements` — the labels of a goal-seeker, in order.
* `nodup_labelsFor`       — they are distinct.
* `isText_body`           — what stands between the slots and the data cells.
* `feasible_statements`   — nothing stands in the way of assembling.
-/

namespace FactorMachine

-- ---------------------------------------------------------------------------
-- Text
-- ---------------------------------------------------------------------------

namespace Statement

variable {names : List String} {s : Statement}

/-- A statement of the text: a label, or an instruction that can be encoded and refers only to
labels among `names`. -/
def InText (names : List String) : Statement → Prop
  | .raw _ | .data _ => False
  | .op opcode => opcode ≠ .push
  | .push value => value < primeCount
  | .pushLabel name => name ∈ names
  | .label _ | .pushSlot _ => True

theorem InText.encodable (h : s.InText names) : s.Encodable := by
  cases s with
  | op opcode => exact h
  | push value => exact h
  | data value => exact h.elim
  | _ => trivial

theorem InText.exists_instruction (h : s.InText names) (hCell : s.makesCell = true)
    (linking : Linking) : ∃ op operand, s.record? linking = some (.instruction op operand) := by
  cases s with
  | raw chunk => exact h.elim
  | data value => exact h.elim
  | label name => cases hCell
  | _ => exact ⟨_, _, rfl⟩

end Statement

/-- Statements of the text. -/
def IsText (names : List String) (ss : List Statement) : Prop := ∀ s ∈ ss, s.InText names

section IsText

variable {names : List String} {name : String} {ss : List Statement}

@[simp] theorem isText_nil : IsText names [] := by
  simp [IsText]

@[simp] theorem isText_append {xs ys : List Statement} :
    IsText names (xs ++ ys) ↔ IsText names xs ∧ IsText names ys := List.forall_mem_append

@[simp] theorem isText_op {op : Opcode} :
    IsText names (.op op :: ss) ↔ op ≠ .push ∧ IsText names ss := List.forall_mem_cons

@[simp] theorem isText_push {value : Nat} :
    IsText names (.push value :: ss) ↔ value < primeCount ∧ IsText names ss := List.forall_mem_cons

@[simp] theorem isText_pushLabel :
    IsText names (.pushLabel name :: ss) ↔ name ∈ names ∧ IsText names ss := List.forall_mem_cons

@[simp] theorem isText_label : IsText names (.label name :: ss) ↔ IsText names ss :=
  List.forall_mem_cons.trans (iff_of_eq (true_and _))

@[simp] theorem isText_pushSlot {slot : SlotRef} :
    IsText names (.pushSlot slot :: ss) ↔ IsText names ss :=
  List.forall_mem_cons.trans (iff_of_eq (true_and _))

end IsText

namespace Seeker

open Statement

-- ---------------------------------------------------------------------------
-- Labels
-- ---------------------------------------------------------------------------

/-- The labels before those of the selected slots. -/
def labelsBefore : List String :=
  [mainLabel, successLabel, failureLabel, nextAttemptLabel, acceptLabel]

/-- The labels after those of the selected slots. -/
def labelsAfter : List String :=
  [slotChosenLabel, notAddLabel, buildPushLabel, writeSlotLabel, unwindLabel, unwindDropLabel,
    guardLabel, previousCell, failuresCell, lastSlotCell, lastKindCell]

/-- The labels of a goal-seeker, in order. -/
def labelsFor (selectedCount : Nat) : List String :=
  labelsBefore ++ (List.range (selectedCount - 1)).map skipLabel ++ labelsAfter

theorem mem_labelsFor {name : String} (selectedCount : Nat)
    (h : name ∈ labelsBefore ++ labelsAfter) : name ∈ labelsFor selectedCount := by
  rw [labelsFor, List.mem_append, List.mem_append]
  rcases List.mem_append.mp h with hBefore | hAfter
  · exact .inl (.inl hBefore)
  · exact .inr hAfter

theorem skipLabel_mem_labelsFor {selectedCount i : Nat} (h : i < selectedCount - 1) :
    skipLabel i ∈ labelsFor selectedCount := by
  simp only [labelsFor, List.mem_append, List.mem_map, List.mem_range]
  exact .inl (.inr ⟨i, h, rfl⟩)

theorem labelNames_replicate (n : Nat) {s : Statement} (h : s.label? = none) :
    labelNames (List.replicate n s) = [] := by
  simp [labelNames, h]

theorem labelNames_restart (c : SeekerConfig) : labelNames (restart c) = [] := by
  have hZeros : labelNames (List.replicate c.slotCount (.push 0)) = [] :=
    labelNames_replicate _ rfl
  have hSplit : restart c =
      [.push c.frameMarker] ++ List.replicate c.slotCount (.push 0) ++ jumpTo mainLabel := rfl
  rw [hSplit, labelNames_append, labelNames_append, hZeros]
  rfl

theorem labelNames_trySlots (indices : List Nat) :
    labelNames (indices.flatMap trySlot) = indices.map skipLabel := by
  induction indices with
  | nil => rfl
  | cons i rest ih =>
    rw [List.flatMap_cons, labelNames_append, ih]
    rfl

theorem labelNames_mainPart (c : SeekerConfig) (p : ProtocolConfig) (target : Nat) :
    labelNames (mainPart c p target) = [mainLabel] := by
  have hSlots : labelNames (List.replicate c.slotCount (.op .nop)) = [] :=
    labelNames_replicate _ rfl
  simp only [mainPart, labelNames_append, hSlots]
  rfl

theorem labelNames_successPart (c : SeekerConfig) : labelNames (successPart c) = [successLabel] := by
  simp only [successPart, labelNames_append, labelNames_restart]
  rfl

theorem labelNames_chooseSlot (selectedCount : Nat) : labelNames (chooseSlot selectedCount) =
    (List.range (selectedCount - 1)).map skipLabel ++ [slotChosenLabel] := by
  simp only [chooseSlot, labelNames_append, labelNames_trySlots, List.append_assoc]
  rfl

theorem labelNames_failurePart (c : SeekerConfig) (p : ProtocolConfig) (selectedCount : Nat) :
    labelNames (failurePart c p selectedCount) = [failureLabel, nextAttemptLabel, acceptLabel] ++
      (List.range (selectedCount - 1)).map skipLabel ++
      [slotChosenLabel, notAddLabel, buildPushLabel, writeSlotLabel] := by
  simp only [failurePart, labelNames_append, labelNames_restart, labelNames_chooseSlot,
    List.append_assoc]
  rfl

/-- The labels of a goal-seeker, in order. -/
theorem labelNames_statements (c : SeekerConfig) (p : ProtocolConfig)
    (target selectedCount : Nat) :
    labelNames (statements c p target selectedCount) = labelsFor selectedCount := by
  simp only [statements, labelNames_append, labelNames_mainPart, labelNames_successPart,
    labelNames_failurePart, labelsFor, List.append_assoc]
  rfl

/-! ## Distinct labels

A label to skip a slot begins as no other label does, and ends in the number of the slot. -/

theorem toList_skipLabel (i : Nat) :
    (skipLabel i).toList = "failure.slot_skip.".toList ++ (toString i).toList := by
  rw [← String.toList_append]
  rfl

theorem skipLabel_injective : Function.Injective skipLabel := by
  intro i j hSame
  have hTexts := congrArg String.toList hSame
  rw [toList_skipLabel, toList_skipLabel] at hTexts
  have hNumerals := String.toList_inj.mp (List.append_cancel_left hTexts)
  by_contra hNe
  exact Text.toString_ne hNe hNumerals

theorem skipLabel_not_mem (i : Nat) : skipLabel i ∉ labelsBefore ++ labelsAfter := by
  have hNone : ∀ name ∈ labelsBefore ++ labelsAfter,
      ¬ "failure.slot_skip.".toList <+: name.toList := by decide
  intro hMem
  refine hNone _ hMem ?_
  rw [toList_skipLabel]
  exact List.prefix_append _ _

/-- However many slots are selected, no label is defined twice. -/
theorem nodup_labelsFor (selectedCount : Nat) : (labelsFor selectedCount).Nodup := by
  have hFixed : (labelsBefore ++ labelsAfter).Nodup := by decide
  have hSkips : ((List.range (selectedCount - 1)).map skipLabel).Nodup :=
    List.nodup_range.map skipLabel_injective
  have hPerm : (labelsFor selectedCount).Perm
      ((List.range (selectedCount - 1)).map skipLabel ++ (labelsBefore ++ labelsAfter)) := by
    rw [labelsFor, ← List.append_assoc]
    exact List.perm_append_comm.append_right _
  rw [hPerm.nodup_iff, List.nodup_append]
  refine ⟨hSkips, hFixed, ?_⟩
  rintro name hSkip _ hMem rfl
  obtain ⟨i, -, rfl⟩ := List.mem_map.mp hSkip
  exact skipLabel_not_mem i hMem

-- ---------------------------------------------------------------------------
-- The text
-- ---------------------------------------------------------------------------

/-- The numbers that a goal-seeker pushes have primes. -/
structure Constants (c : SeekerConfig) (p : ProtocolConfig) (target : Nat) : Prop where
  target : target < primeCount
  successFeedback : p.successFeedback < primeCount
  stuckSignal : p.stuckSignal < primeCount
  attemptModulus : c.attemptModulus < primeCount
  attemptIncrement : c.attemptIncrement < primeCount
  randomOffsetBound : c.randomOffsetBound < primeCount
  maxFailuresBeforeStuck : c.maxFailuresBeforeStuck < primeCount
  frameMarker : c.frameMarker < primeCount

/-- The numbers that the text brings with it are small. -/
theorem lt_primeCount_of_le {n : Nat} (h : n ≤ 63) : n < primeCount :=
  Nat.lt_of_le_of_lt h (by decide)

section Fragments

variable {names : List String} {name cell : String}

@[simp] theorem isText_branchIfFalse : IsText names (branchIfFalse name) ↔ name ∈ names := by
  simp [branchIfFalse]

@[simp] theorem isText_jumpTo : IsText names (jumpTo name) ↔ name ∈ names := by
  simp [jumpTo]

@[simp] theorem isText_callTo : IsText names (callTo name) ↔ name ∈ names := by
  simp [callTo]

@[simp] theorem isText_loadCell : IsText names (loadCell cell) ↔ cell ∈ names := by
  simp [loadCell, ops]

@[simp] theorem isText_storeCell : IsText names (storeCell cell) ↔ cell ∈ names := by
  simp [storeCell, lt_primeCount_of_le, dataExponent]

@[simp] theorem isText_buildOpcode (op : Opcode) : IsText names (buildOpcode op) := by
  simp [buildOpcode, lt_primeCount_of_le, opcodeExponent, op.index_lt]

@[simp] theorem isText_buildPush : IsText names buildPush := by
  simp [buildPush, lt_primeCount_of_le, operandExponent, opcodeExponent, Opcode.push.index_lt]

@[simp] theorem isText_pokeMain : IsText names pokeMain ↔ mainLabel ∈ names := by
  simp [pokeMain]

theorem isText_restart {c : SeekerConfig} (hMarker : c.frameMarker < primeCount)
    (h : mainLabel ∈ names) : IsText names (restart c) := by
  have hZeros : IsText names (List.replicate c.slotCount (.push 0)) := by
    intro s hMem
    rw [List.eq_of_mem_replicate hMem]
    exact lt_primeCount_of_le (by decide)
  simp [restart, hMarker, hZeros, h]

theorem isText_trySlots {indices : List Nat} (hChosen : slotChosenLabel ∈ names)
    (h : ∀ i ∈ indices, i < primeCount ∧ skipLabel i ∈ names) :
    IsText names (indices.flatMap trySlot) := by
  induction indices with
  | nil => exact isText_nil
  | cons i rest ih =>
    obtain ⟨⟨hi, hSkip⟩, hRest⟩ := List.forall_mem_cons.mp h
    simp [trySlot, hi, hSkip, hChosen, ih hRest]

end Fragments

section Parts

variable {c : SeekerConfig} {p : ProtocolConfig} {target selectedCount : Nat}

theorem isText_successPart (h : Constants c p target) :
    IsText (labelsFor selectedCount) (successPart c) := by
  have hRestart : IsText (labelsFor selectedCount) (restart c) :=
    isText_restart h.frameMarker (mem_labelsFor _ (by decide))
  simp (disch := decide) [successPart, ops, hRestart, lt_primeCount_of_le, nopKind, mem_labelsFor]

theorem isText_chooseSlot (h : selectedCount < primeCount) :
    IsText (labelsFor selectedCount) (chooseSlot selectedCount) := by
  have hSlots : IsText (labelsFor selectedCount)
      ((List.range (selectedCount - 1)).flatMap trySlot) := by
    refine isText_trySlots (mem_labelsFor _ (by decide)) fun i hi => ?_
    have hi := List.mem_range.mp hi
    exact ⟨by omega, skipLabel_mem_labelsFor hi⟩
  simp (disch := decide) [chooseSlot, h, hSlots, mem_labelsFor]

theorem isText_failurePart (h : Constants c p target) (hCount : selectedCount < primeCount) :
    IsText (labelsFor selectedCount) (failurePart c p selectedCount) := by
  have hRestart : IsText (labelsFor selectedCount) (restart c) :=
    isText_restart h.frameMarker (mem_labelsFor _ (by decide))
  have hCounting : IsText (labelsFor selectedCount) (countFailure c p) := by
    simp (disch := decide) [countFailure, lt_primeCount_of_le, h.maxFailuresBeforeStuck,
      h.stuckSignal, mem_labelsFor]
  have hAttempt : IsText (labelsFor selectedCount) (chooseAttempt c) := by
    simp (disch := decide) [chooseAttempt, lt_primeCount_of_le, h.randomOffsetBound,
      h.attemptIncrement, h.attemptModulus, mem_labelsFor]
  have hKind : IsText (labelsFor selectedCount) chooseKind := by
    simp (disch := decide) [chooseKind, lt_primeCount_of_le, addKind, nopKind, kindCount,
      mem_labelsFor]
  simp (disch := decide) [failurePart, hCounting, hAttempt, isText_chooseSlot hCount, hKind,
    hRestart, mem_labelsFor]

/-- Between the slots and the data cells there are instructions only. -/
theorem isText_body (h : Constants c p target) (hCount : selectedCount < primeCount) :
    IsText (labelsFor selectedCount) (body c p selectedCount) := by
  have hUnwind : IsText (labelsFor selectedCount) (unwindPart c) := by
    simp (disch := decide) [unwindPart, h.frameMarker, mem_labelsFor]
  simp (disch := decide) [body, ops, h.successFeedback, isText_successPart h,
    isText_failurePart h hCount, hUnwind, mem_labelsFor]

/-- A program has a cell for each of its slots. -/
theorem slotCount_lt_length (c : SeekerConfig) (p : ProtocolConfig)
    (target selectedCount : Nat) :
    c.slotCount < (cellStatements (statements c p target selectedCount)).length := by
  rw [cellStatements_statements, List.length_cons, List.length_append, List.length_replicate]
  omega

-- ---------------------------------------------------------------------------
-- The whole program
-- ---------------------------------------------------------------------------

theorem mem_statements {s : Statement} (h : s ∈ statements c p target selectedCount) :
    s = .label mainLabel ∨ s = .push target ∨ s = .op .nop ∨ s ∈ body c p selectedCount ∨
      s ∈ cellPart target := by
  simp only [statements_eq, List.mem_append, List.mem_cons, List.not_mem_nil, or_false,
    List.mem_replicate] at h
  rcases h with ((hHead | ⟨-, hNop⟩) | hBody) | hCell
  · rcases hHead with hMain | hPush
    · exact .inl hMain
    · exact .inr (.inl hPush)
  · exact .inr (.inr (.inl hNop))
  · exact .inr (.inr (.inr (.inl hBody)))
  · exact .inr (.inr (.inr (.inr hCell)))

/-- Nothing stands in the way of assembling a goal-seeker whose numbers have primes and whose
program is short enough. -/
theorem feasible_statements (h : Constants c p target) (hCount : selectedCount ≤ c.slotCount)
    (hLength : (cellStatements (statements c p target selectedCount)).length < primeCount) :
    Feasible (statements c p target selectedCount) := by
  have hSlots := slotCount_lt_length c p target selectedCount
  have hText : IsText (labelsFor selectedCount) (body c p selectedCount) :=
    isText_body h (by omega)
  constructor
  · intro s hMem
    rcases mem_statements hMem with rfl | rfl | rfl | hBody | hCell
    · trivial
    · exact h.target
    · exact (by decide : Opcode.nop ≠ .push)
    · exact (hText s hBody).encodable
    · have hCells : ∀ s ∈ cellPart target, s.Encodable := by
        simp [cellPart, Statement.Encodable, h.target, nopKind, lt_primeCount_of_le]
      exact hCells s hCell
  · rw [labelNames_statements]
    exact nodup_labelsFor selectedCount
  · intro name hMem
    rw [labelNames_statements]
    rcases mem_statements hMem with hMain | hPush | hNop | hBody | hCell
    · cases hMain
    · cases hPush
    · cases hNop
    · exact hText _ hBody
    · simp [cellPart] at hCell
  · exact hLength

end Parts

end Seeker

end FactorMachine
