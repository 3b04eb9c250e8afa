import FactorMachine.Proofs.Seeker.Feedback

/-!
# FactorMachine — what a miss leads to

After a miss a goal-seeker takes its frame down, counts the failure, chooses the next attempt,
draws one of the selected slots and what to write there, and begins the next iteration with
the slot rewritten. The result is the same whatever was on the frame: it depends on the word
that was shown, on the data cells, and on three draws.

## Results

* `Layout.afterMiss` — the contents after a miss, given the draws.
* `from_miss`        — from a miss to the next iteration.
-/

namespace FactorMachine

-- ---------------------------------------------------------------------------
-- What a miss changes
-- ---------------------------------------------------------------------------

namespace SeekerConfig

/-- The attempt that follows a miss: the word that was shown is moved on, and once more if that
gives the previous attempt. -/
def nextAttempt (c : SeekerConfig) (shown offset previous : Nat) : Nat :=
  let moved := (shown + (offset + c.attemptIncrement)) % c.attemptModulus
  if moved = previous then (moved + 1) % c.attemptModulus else moved

variable {c : SeekerConfig} {shown offset previous : Nat}

theorem nextAttempt_lt (h : 2 ≤ c.attemptModulus) :
    c.nextAttempt shown offset previous < c.attemptModulus := by
  unfold nextAttempt
  dsimp only
  split <;> exact Nat.mod_lt _ (by omega)

/-- The previous attempt is not made again. -/
theorem nextAttempt_ne (h : 2 ≤ c.attemptModulus) :
    c.nextAttempt shown offset previous ≠ previous := by
  unfold nextAttempt
  dsimp only
  generalize hMoved : (shown + (offset + c.attemptIncrement)) % c.attemptModulus = moved
  have hLt : moved < c.attemptModulus := hMoved ▸ Nat.mod_lt _ (by omega)
  split
  · rename_i hSame
    subst hSame
    -- the successor goes round at the modulus, which is at least two
    rcases Nat.lt_or_ge (moved + 1) c.attemptModulus with hBelow | hWrap
    · rw [Nat.mod_eq_of_lt hBelow]
      omega
    · obtain hEnd : moved + 1 = c.attemptModulus := by omega
      rw [hEnd, Nat.mod_self]
      omega
  · assumption

end SeekerConfig

namespace Seeker

open Statement Terms

/-- What a slot is rewritten to, given the number that was drawn. -/
def drawnKind : Nat → SlotKind
  | 0 => .push
  | 1 => .add
  | _ => .nop

namespace Layout

/-- The words printed so far, with the stuck signal if there have been enough failures. -/
def reported (l : Layout) (m : Contents) (printed : List Word) : List Word :=
  if m.cell .failures + 1 = l.config.maxFailuresBeforeStuck then
    (l.protocol.stuckSignal : Int) :: printed
  else printed

/-- The attempt that follows a miss, given the offset that was drawn. -/
def nextAttempt (l : Layout) (m : Contents) (offset : Nat) : Nat :=
  l.config.nextAttempt ((l.shape m).shown m.attempt) offset (m.cell .previous)

/-- The contents after a miss, given what was drawn: the offset, the place of a slot and its
new kind. -/
def afterMiss (l : Layout) (m : Contents) (offset place kind : Nat) : Contents :=
  (((((m.store .failures (m.cell .failures + 1)).store .lastSlot
    (l.linking.slot (.selected place))).store .lastKind kind).rewrite
      (l.linking.slot (.selected place)) (drawnKind kind)).store .previous
        (l.nextAttempt m offset)).aim (l.nextAttempt m offset)

section AfterMiss

variable (l : Layout) (m : Contents) (offset place kind : Nat)

theorem afterMiss_slots : (l.afterMiss m offset place kind).slots =
    (m.rewrite (l.linking.slot (.selected place)) (drawnKind kind)).slots := rfl

theorem afterMiss_previous :
    (l.afterMiss m offset place kind).cell .previous = l.nextAttempt m offset := by
  simp [afterMiss]

theorem afterMiss_failures :
    (l.afterMiss m offset place kind).cell .failures = m.cell .failures + 1 := by
  simp [afterMiss, Contents.store_cell_of_ne]

theorem afterMiss_lastSlot : (l.afterMiss m offset place kind).cell .lastSlot =
    l.linking.slot (.selected place) := by
  simp [afterMiss, Contents.store_cell_of_ne]

theorem afterMiss_lastKind : (l.afterMiss m offset place kind).cell .lastKind = kind := by
  simp [afterMiss, Contents.store_cell_of_ne]

end AfterMiss

theorem slot_mem (l : Layout) {i : Nat} (hi : i < l.selected.length) :
    l.linking.slot (.selected i) ∈ l.selected := by
  have hAt : l.selected[i]? = some l.selected[i] := List.getElem?_eq_getElem hi
  rw [l.slot_selected i _ hAt]
  exact List.getElem_mem hi

theorem slot_lt (l : Layout) {i : Nat} (hi : i < l.selected.length) :
    l.linking.slot (.selected i) < primeCount :=
  Nat.lt_of_le_of_lt (l.selected_range _ (l.slot_mem hi)).2 l.slotCount_lt

theorem nextAttempt_lt (l : Layout) (m : Contents) (offset : Nat) :
    l.nextAttempt m offset < l.config.attemptModulus := by
  obtain ⟨hModulus, -, -⟩ := l.constants_possible
  exact SeekerConfig.nextAttempt_lt hModulus

theorem shown_lt {l : Layout} {m : Contents} (hValid : l.Valid m) :
    (l.shape m).shown m.attempt < primeCount := by
  unfold Shape.shown
  split
  · exact hValid.attempt
  · decide

theorem Valid.afterMiss {l : Layout} {m : Contents} {place kind : Nat} (hValid : l.Valid m)
    (hCount : m.cell .failures + 1 < primeCount) (offset : Nat)
    (hPlace : place < l.selected.length) (hKind : kind < kindCount) :
    l.Valid (l.afterMiss m offset place kind) := by
  have hNext := Nat.lt_trans (l.nextAttempt_lt m offset) l.modulus_lt
  have hKindLt : kind < primeCount := Nat.lt_trans hKind (by decide)
  exact (((((hValid.store .failures hCount).store .lastSlot (l.slot_lt hPlace)).store .lastKind
    hKindLt).rewrite _ (l.slot_mem hPlace)).store .previous hNext).aim hNext

end Layout

-- ---------------------------------------------------------------------------
-- The steps of the failure path
-- ---------------------------------------------------------------------------

section Rules

variable {σ : Type} [RandomSource σ] {l : Layout} {w : Watch σ} {m : Contents}
  {stack base : List Word} {printed : List Word} {random : σ} {address : Nat}
  {rest : List Statement}

/-- The failure is counted, and the stuck signal is printed if there have been enough. -/
theorem from_countFailure
    (hCode : (l.terms w).Placed address
      (countFailure l.config l.protocol ++ .label nextAttemptLabel :: rest))
    (hValid : l.Valid m) (hCount : w.MayFail ∨ m.cell .failures + 1 < primeCount)
    (hRoom : (l.terms w).Room (stack.length + 3))
    (next : m.cell .failures + 1 < primeCount → (l.terms w).From (l.linking.label nextAttemptLabel)
      ⟨l.picture (m.store .failures (m.cell .failures + 1)), stack, [], l.reported m printed,
        random⟩) :
    (l.terms w).From address ⟨l.picture m, stack, [], printed, random⟩ := by
  obtain ⟨-, hEnters, -⟩ := hCode.at_label
  have hSplit : (l.terms w).Placed address (loadCell failuresCell ++ (.push 1 :: .op .add ::
      .op .dup :: (storeCell failuresCell ++ (.push l.config.maxFailuresBeforeStuck ::
        .op .compareEq :: (branchIfFalse nextAttemptLabel ++ (.push l.protocol.stuckSignal ::
          .op .print :: .label nextAttemptLabel :: rest)))))) := by
    simp only [countFailure, List.append_assoc, List.cons_append, List.nil_append] at hCode ⊢
    exact hCode
  have hOld : (m.cell .failures : Int) < primeCount := Int.ofNat_lt.mpr (hValid.cell .failures)
  have hLimit : (primeCount : Int) + 1 < 2 ^ 127 := by decide
  refine from_loadCell hSplit (l.picture_cell m .failures) (hValid.cell .failures)
    (hRoom.mono (by omega)) fun hCode => ?_
  refine from_push hCode (hRoom.mono (by simp)) fun hCode => ?_
  refine from_add hCode (by omega) (by omega) (hRoom.mono (by omega)) fun hCode => ?_
  refine from_dup hCode (hRoom.mono (by omega)) fun hCode => ?_
  -- only an index can be written to a cell, and here it is one unless faults are allowed
  have hCounted : w.MayFail ∨ ∃ n : Nat, n < primeCount ∧
      (m.cell .failures : Int) + (1 : Nat) = n :=
    hCount.imp_right fun hLt => ⟨_, hLt, by push_cast; rfl⟩
  refine from_store .failures hCode hValid hCounted (hRoom.mono (by simp)) fun hCode n hLt hn => ?_
  obtain rfl : m.cell .failures + 1 = n := by
    have : ((m.cell .failures + 1 : Nat) : Int) = n := by push_cast; exact hn
    exact Int.ofNat_inj.mp this
  have next := next hLt
  refine from_push hCode (hRoom.mono (by simp)) fun hCode => ?_
  refine from_branchUnlessEqual hCode hEnters (hRoom.mono (by omega)) (fun hOther => ?_)
    fun hSame hCode => ?_
  · -- the count is not the one at which the signal is printed
    have hNotStuck : m.cell .failures + 1 ≠ l.config.maxFailuresBeforeStuck := fun hEq =>
      hOther (hn.trans (congrArg Nat.cast hEq))
    rw [Layout.reported, if_neg hNotStuck] at next
    exact next
  · have hStuck : m.cell .failures + 1 = l.config.maxFailuresBeforeStuck :=
      Int.ofNat_inj.mp (hn.symm.trans hSame)
    rw [Layout.reported, if_pos hStuck] at next
    refine from_push hCode (hRoom.mono (by omega)) fun hCode => ?_
    refine from_print hCode fun hCode => ?_
    have hHere : l.linking.label nextAttemptLabel = _ := hCode.1.1
    exact hHere ▸ next

/-- The word that was shown is moved on by the increment and a random offset. -/
theorem from_moveOn {shown : Nat}
    (hCode : (l.terms w).Placed address (.label nextAttemptLabel ::
      .push l.config.randomOffsetBound :: .op .random :: .push l.config.attemptIncrement ::
      .op .add :: .op .add :: .push l.config.attemptModulus :: .op .mod :: rest))
    (hShown : shown < primeCount) (hRoom : (l.terms w).Room (base.length + 4))
    (next : ∀ (offset : Nat) (random' : σ), (l.terms w).Placed (address + 7) rest →
      RandomSource.draw 128 l.config.randomOffsetBound random = (offset, random') →
      (l.terms w).From (address + 7) ⟨l.picture m, (((shown + (offset +
        l.config.attemptIncrement)) % l.config.attemptModulus : Nat) : Int) :: base, [], printed,
          random'⟩) :
    (l.terms w).From address ⟨l.picture m, (shown : Int) :: base, [], printed, random⟩ := by
  obtain ⟨hModulus, hOffset, -⟩ := l.constants_possible
  -- all the words are numbered indices, and sums of three of them stay words
  have hLimit : 3 * (primeCount : Int) < 2 ^ 127 := by decide
  have hIncrement : (l.config.attemptIncrement : Int) < primeCount :=
    Int.ofNat_lt.mpr l.increment_lt
  have hBound : (l.config.randomOffsetBound : Int) < primeCount := Int.ofNat_lt.mpr l.offsetBound_lt
  have hShown' : (shown : Int) < primeCount := Int.ofNat_lt.mpr hShown
  refine from_label hCode fun hCode => ?_
  refine from_push hCode (hRoom.mono (by simp)) fun hCode => ?_
  refine from_random hCode hOffset (hRoom.mono (by simp)) fun hCode offset random' hDraw hLt => ?_
  have hDrawn : (offset : Int) < l.config.randomOffsetBound := Int.ofNat_lt.mpr hLt
  refine from_push hCode (hRoom.mono (by simp)) fun hCode => ?_
  refine from_add hCode (by omega) (by omega) (hRoom.mono (by simp)) fun hCode => ?_
  refine from_add hCode (by omega) (by omega) (hRoom.mono (by omega)) fun hCode => ?_
  refine from_push hCode (hRoom.mono (by simp)) fun hCode => ?_
  refine from_mod hCode (by omega) (hRoom.mono (by omega)) fun hCode => ?_
  have hNext := next offset random' hCode hDraw
  push_cast at hNext
  exact hNext

/-- An attempt that is the previous one is moved on by one more. -/
theorem from_avoidPrevious {moved : Nat}
    (hCode : (l.terms w).Placed address (.op .dup :: (loadCell previousCell ++
      (.op .compareEq :: (branchIfFalse acceptLabel ++ (.push 1 :: .op .add ::
        .push l.config.attemptModulus :: .op .mod :: .label acceptLabel :: rest))))))
    (hEnters : (l.terms w).Enters acceptLabel) (hValid : l.Valid m)
    (hMoved : moved < l.config.attemptModulus) (hRoom : (l.terms w).Room (base.length + 4))
    (next : (l.terms w).From (l.linking.label acceptLabel) ⟨l.picture m,
      ((if moved = m.cell .previous then (moved + 1) % l.config.attemptModulus else moved : Nat) :
        Int) :: base, [], printed, random⟩) :
    (l.terms w).From address ⟨l.picture m, (moved : Int) :: base, [], printed, random⟩ := by
  have hLimit : 3 * (primeCount : Int) < 2 ^ 127 := by decide
  have hModulus : (l.config.attemptModulus : Int) < primeCount := Int.ofNat_lt.mpr l.modulus_lt
  have hMoved' : (moved : Int) < l.config.attemptModulus := Int.ofNat_lt.mpr hMoved
  refine from_dup hCode (hRoom.mono (by omega)) fun hCode => ?_
  refine from_loadCell hCode (l.picture_cell m .previous) (hValid.cell .previous)
    (hRoom.mono (by simp)) fun hCode => ?_
  refine from_branchUnlessEqual hCode hEnters (hRoom.mono (by simp)) (fun hOther => ?_)
    fun hSame hCode => ?_
  · -- the attempt differs from the previous one
    rw [if_neg fun hEq => hOther (congrArg Nat.cast hEq)] at next
    exact next
  · -- it is the previous one again
    rw [if_pos (Int.ofNat_inj.mp hSame)] at next
    refine from_push hCode (hRoom.mono (by simp)) fun hCode => ?_
    refine from_add hCode (by omega) (by omega) (hRoom.mono (by omega)) fun hCode => ?_
    refine from_push hCode (hRoom.mono (by simp)) fun hCode => ?_
    refine from_mod hCode (by omega) (hRoom.mono (by omega)) fun hCode => ?_
    have hHere : l.linking.label acceptLabel = _ := hCode.1.1
    rw [hHere] at next
    push_cast at next
    exact next

/-- The next attempt replaces the one that was shown. -/
theorem from_chooseAttempt {m' : Contents}
    (hCode : (l.terms w).Placed address (chooseAttempt l.config ++ rest))
    (hValid : l.Valid m') (hShown : (l.shape m).shown m.attempt < primeCount)
    (hPrevious : m'.cell .previous = m.cell .previous)
    (hRoom : (l.terms w).Room (base.length + 4))
    (next : ∀ (address' offset : Nat) (random' : σ), (l.terms w).Placed address' rest →
      RandomSource.draw 128 l.config.randomOffsetBound random = (offset, random') →
      (l.terms w).From address'
        ⟨l.picture m', (l.nextAttempt m offset : Int) :: base, [], printed, random'⟩) :
    (l.terms w).From (l.linking.label nextAttemptLabel)
      ⟨l.picture m', ((l.shape m).shown m.attempt : Int) :: base, [], printed, random⟩ := by
  obtain ⟨hModulus, -, -⟩ := l.constants_possible
  have hHere : l.linking.label nextAttemptLabel = address := hCode.1.1
  rw [hHere]
  have hSplit : (l.terms w).Placed address (.label nextAttemptLabel ::
      .push l.config.randomOffsetBound :: .op .random :: .push l.config.attemptIncrement ::
      .op .add :: .op .add :: .push l.config.attemptModulus :: .op .mod :: .op .dup ::
      (loadCell previousCell ++ (.op .compareEq :: (branchIfFalse acceptLabel ++
        (.push 1 :: .op .add :: .push l.config.attemptModulus :: .op .mod ::
          .label acceptLabel :: rest))))) := by
    simp only [chooseAttempt, List.append_assoc, List.cons_append, List.nil_append] at hCode ⊢
    exact hCode
  have hAccept : (l.terms w).Placed address
      ((chooseAttempt l.config).dropLast ++ .label acceptLabel :: rest) := by
    simp only [chooseAttempt, List.append_assoc, List.cons_append, List.nil_append] at hCode ⊢
    exact hCode
  obtain ⟨hRest, hEnters, -⟩ := hAccept.at_label
  refine from_moveOn hSplit hShown hRoom fun offset random' hCode hDraw => ?_
  refine from_avoidPrevious hCode hEnters hValid (Nat.mod_lt _ (by omega)) hRoom ?_
  rw [hPrevious]
  exact next (l.linking.label acceptLabel) offset random' hRest hDraw

/-- The slots are tried in order until the one that was drawn. -/
theorem from_trySlots {first count drawn : Nat}
    (hCode : (l.terms w).Placed address ((List.range' first count).flatMap trySlot ++ rest))
    (hEnters : (l.terms w).Enters slotChosenLabel) (hFirst : first ≤ drawn)
    (hRoom : (l.terms w).Room (stack.length + 2))
    (chosen : (l.terms w).From (l.linking.label slotChosenLabel)
      ⟨l.picture m, (l.linking.slot (.selected drawn) : Int) :: stack, [], printed, random⟩)
    (last : ∀ address', (l.terms w).Placed address' rest → first + count ≤ drawn →
      (l.terms w).From address' ⟨l.picture m, (drawn : Int) :: stack, [], printed, random⟩) :
    (l.terms w).From address
      ⟨l.picture m, (drawn : Int) :: stack, [], printed, random⟩ := by
  induction count generalizing first address with
  | zero => exact last address hCode hFirst
  | succ count ih =>
    have hSplit : (l.terms w).Placed address ([.op .dup, .push first, .op .compareEq] ++
        (branchIfFalse (skipLabel first) ++ (.op .drop :: .pushSlot (.selected first) ::
          (jumpTo slotChosenLabel ++ .label (skipLabel first) ::
            ((List.range' (first + 1) count).flatMap trySlot ++ rest))))) := by
      rw [List.range'_succ, List.flatMap_cons] at hCode
      simp only [trySlot, List.append_assoc, List.cons_append, List.nil_append] at hCode ⊢
      exact hCode
    have hSkip : (l.terms w).Placed address (([.op .dup, .push first, .op .compareEq] ++
        branchIfFalse (skipLabel first) ++ [.op .drop, .pushSlot (.selected first)] ++
          jumpTo slotChosenLabel) ++ .label (skipLabel first) ::
            ((List.range' (first + 1) count).flatMap trySlot ++ rest)) := by
      simp only [List.append_assoc, List.cons_append, List.nil_append] at hSplit ⊢
      exact hSplit
    obtain ⟨hRest, hEntersSkip, -⟩ := hSkip.at_label
    refine from_dup hSplit (hRoom.mono (by omega)) fun hCode => ?_
    refine from_push hCode (hRoom.mono (by simp)) fun hCode => ?_
    refine from_branchUnlessEqual hCode hEntersSkip (hRoom.mono (by simp)) (fun hOther => ?_)
      fun hSame hCode => ?_
    · have hLater : drawn ≠ first := fun hEq => hOther (congrArg Nat.cast hEq)
      exact ih hRest (by omega) fun address' hPlaced hLe => last address' hPlaced (by omega)
    · -- this is the slot that was drawn
      obtain rfl : drawn = first := Int.ofNat_inj.mp hSame
      refine from_drop hCode fun hCode => ?_
      refine from_pushSlot hCode (hRoom.mono (by omega)) fun hCode => ?_
      exact from_jumpTo hCode hEnters (hRoom.mono (by simp)) chosen

/-- One of the selected slots is drawn, and remembered as the last one. -/
theorem from_chooseSlot
    (hCode : (l.terms w).Placed address (chooseSlot l.selected.length ++ rest))
    (hValid : l.Valid m) (hRoom : (l.terms w).Room (stack.length + 3))
    (next : ∀ (address' place : Nat) (random' : σ), (l.terms w).Placed address' rest →
      RandomSource.draw 128 l.selected.length random = (place, random') →
      place < l.selected.length → (l.terms w).From address'
        ⟨l.picture (m.store .lastSlot (l.linking.slot (.selected place))),
          (l.linking.slot (.selected place) : Int) :: stack, [], printed, random'⟩) :
    (l.terms w).From address ⟨l.picture m, stack, [], printed, random⟩ := by
  have hPos := l.selected_pos
  have hSplit : (l.terms w).Placed address (.push l.selected.length :: .op .random ::
      ((List.range' 0 (l.selected.length - 1)).flatMap trySlot ++ (.op .drop ::
        .pushSlot (.selected (l.selected.length - 1)) :: .label slotChosenLabel :: .op .dup ::
          (storeCell lastSlotCell ++ rest)))) := by
    simp only [chooseSlot, List.range_eq_range', List.append_assoc, List.cons_append,
      List.nil_append] at hCode ⊢
    exact hCode
  have hChosen : (l.terms w).Placed address (([.push l.selected.length, .op .random] ++
      (List.range' 0 (l.selected.length - 1)).flatMap trySlot ++ [.op .drop,
        .pushSlot (.selected (l.selected.length - 1))]) ++ .label slotChosenLabel :: .op .dup ::
          (storeCell lastSlotCell ++ rest)) := by
    simp only [List.append_assoc, List.cons_append, List.nil_append] at hSplit ⊢
    exact hSplit
  obtain ⟨hAfter, hEnters, -⟩ := hChosen.at_label
  refine from_push hSplit (hRoom.mono (by omega)) fun hCode => ?_
  refine from_random hCode hPos (hRoom.mono (by omega)) fun hCode place random' hDraw hPlace => ?_
  -- wherever the slot is found, what follows is the same
  have hGoal : (l.terms w).From (l.linking.label slotChosenLabel) ⟨l.picture m,
      (l.linking.slot (.selected place) : Int) :: stack, [], printed, random'⟩ := by
    refine from_dup hAfter (hRoom.mono (by omega)) fun hCode => ?_
    refine from_store .lastSlot hCode hValid (.inr ⟨_, l.slot_lt hPlace, rfl⟩)
      (hRoom.mono (by simp)) fun hCode slot _ hSlot => ?_
    obtain rfl : l.linking.slot (.selected place) = slot := Int.ofNat_inj.mp hSlot
    exact next _ place random' hCode hDraw hPlace
  refine from_trySlots hCode hEnters (Nat.zero_le _) (hRoom.mono (by omega)) hGoal
    fun address' hCode hLast => ?_
  -- the last slot is not compared with
  obtain rfl : place = l.selected.length - 1 := by omega
  refine from_drop hCode fun hCode => ?_
  refine from_pushSlot hCode (hRoom.mono (by omega)) fun hCode => ?_
  have hHere : l.linking.label slotChosenLabel = _ := hCode.1.1
  exact hHere ▸ hGoal

/-- The chunk of a kind that is not an addition is built. -/
theorem from_buildOther {kind : Nat}
    (hCode : (l.terms w).Placed address (.push nopKind :: .op .compareEq ::
      (branchIfFalse buildPushLabel ++ (buildOpcode .nop ++ (jumpTo writeSlotLabel ++
        (.label buildPushLabel :: .push 0 :: (buildPush ++ .label writeSlotLabel :: rest)))))))
    (hEntersWrite : (l.terms w).Enters writeSlotLabel) (hKind : kind < kindCount)
    (hNotAdd : kind ≠ addKind) (hRoom : (l.terms w).Room (stack.length + 4))
    (next : (l.terms w).From (l.linking.label writeSlotLabel)
      ⟨l.picture m, ((drawnKind kind).record.chunk : Int) :: stack, [], printed, random⟩) :
    (l.terms w).From address ⟨l.picture m, (kind : Int) :: stack, [], printed, random⟩ := by
  have hBuild : (l.terms w).Placed address
      ((.push nopKind :: .op .compareEq ::
        (branchIfFalse buildPushLabel ++ (buildOpcode .nop ++ jumpTo writeSlotLabel))) ++
          .label buildPushLabel :: (.push 0 :: (buildPush ++ .label writeSlotLabel :: rest))) := by
    simp only [List.append_assoc, List.cons_append] at hCode ⊢
    exact hCode
  obtain ⟨hPush, hEntersPush, -⟩ := hBuild.at_label
  unfold kindCount at hKind
  unfold addKind at hNotAdd
  refine from_push hCode (hRoom.mono (by simp)) fun hCode => ?_
  refine from_branchUnlessEqual hCode hEntersPush (hRoom.mono (by omega)) (fun hOther => ?_)
    fun hSame hCode => ?_
  · -- of the three kinds only a push is left
    have hNotNop : kind ≠ nopKind := fun hEq => hOther (congrArg Nat.cast hEq)
    obtain rfl : kind = pushKind := by
      unfold nopKind at hNotNop
      unfold pushKind
      omega
    refine from_push hPush (hRoom.mono (by omega)) fun hCode => ?_
    refine from_buildPush hCode (by decide) hRoom fun hCode => ?_
    have hHere : l.linking.label writeSlotLabel = _ := hCode.1.1
    exact hHere ▸ next
  · obtain rfl : kind = nopKind := Int.ofNat_inj.mp hSame
    refine from_buildOpcode hCode (by decide) (hRoom.mono (by omega)) fun hCode => ?_
    exact from_jumpTo hCode hEntersWrite (hRoom.mono (by simp)) next

/-- A kind is drawn, remembered, and its chunk is built. -/
theorem from_chooseKind
    (hCode : (l.terms w).Placed address (chooseKind ++ .label writeSlotLabel :: rest))
    (hValid : l.Valid m) (hRoom : (l.terms w).Room (stack.length + 4))
    (next : ∀ (kind : Nat) (random' : σ),
      RandomSource.draw 128 kindCount random = (kind, random') → kind < kindCount →
      (l.terms w).From (l.linking.label writeSlotLabel)
        ⟨l.picture (m.store .lastKind kind), ((drawnKind kind).record.chunk : Int) :: stack, [],
          printed, random'⟩) :
    (l.terms w).From address ⟨l.picture m, stack, [], printed, random⟩ := by
  obtain ⟨-, hEntersWrite, -⟩ := hCode.at_label
  have hSplit : (l.terms w).Placed address (.push kindCount :: .op .random :: .op .dup ::
      (storeCell lastKindCell ++ (.op .dup :: .push addKind :: .op .compareEq ::
        (branchIfFalse notAddLabel ++ (.op .drop :: (buildOpcode .add ++ (jumpTo writeSlotLabel ++
          (.label notAddLabel :: .push nopKind :: .op .compareEq ::
            (branchIfFalse buildPushLabel ++ (buildOpcode .nop ++ (jumpTo writeSlotLabel ++
              (.label buildPushLabel :: .push 0 ::
                (buildPush ++ .label writeSlotLabel :: rest))))))))))))) := by
    simp only [chooseKind, List.append_assoc, List.cons_append, List.nil_append] at hCode ⊢
    exact hCode
  have hNotAdd : (l.terms w).Placed address (([.push kindCount, .op .random, .op .dup] ++
      storeCell lastKindCell ++ [.op .dup, .push addKind, .op .compareEq] ++
        branchIfFalse notAddLabel ++ [.op .drop] ++ buildOpcode .add ++ jumpTo writeSlotLabel) ++
          .label notAddLabel :: (.push nopKind :: .op .compareEq ::
            (branchIfFalse buildPushLabel ++ (buildOpcode .nop ++ (jumpTo writeSlotLabel ++
              (.label buildPushLabel :: .push 0 ::
                (buildPush ++ .label writeSlotLabel :: rest))))))) := by
    simp only [List.append_assoc, List.cons_append, List.nil_append] at hSplit ⊢
    exact hSplit
  obtain ⟨hAfter, hEntersOther, -⟩ := hNotAdd.at_label
  refine from_push hSplit (hRoom.mono (by omega)) fun hCode => ?_
  refine from_random hCode (by decide) (hRoom.mono (by omega))
    fun hCode kind random' hDraw hKind => ?_
  have hNext := next kind random' hDraw hKind
  have hKindLt : kind < primeCount := Nat.lt_trans hKind (by decide)
  refine from_dup hCode (hRoom.mono (by omega)) fun hCode => ?_
  refine from_store .lastKind hCode hValid (.inr ⟨kind, hKindLt, rfl⟩) (hRoom.mono (by simp))
    fun hCode n _ hn => ?_
  obtain rfl : kind = n := Int.ofNat_inj.mp hn
  refine from_dup hCode (hRoom.mono (by omega)) fun hCode => ?_
  refine from_push hCode (hRoom.mono (by simp)) fun hCode => ?_
  refine from_branchUnlessEqual hCode hEntersOther (hRoom.mono (by simp)) (fun hOther => ?_)
    fun hSame hCode => ?_
  · exact from_buildOther hAfter hEntersWrite hKind
      (fun hEq => hOther (congrArg Nat.cast hEq)) hRoom hNext
  · obtain rfl : kind = addKind := Int.ofNat_inj.mp hSame
    refine from_drop hCode fun hCode => ?_
    refine from_buildOpcode hCode (by decide) (hRoom.mono (by omega)) fun hCode => ?_
    exact from_jumpTo hCode hEntersWrite (hRoom.mono (by simp)) hNext

/-- The slot and address zero are rewritten, and the next iteration begins. -/
theorem from_writeBack {slot attempt : Nat} (kind : SlotKind)
    (hCode : (l.terms w).Placed (l.linking.label writeSlotLabel) (.op .swap :: .op .pokeChunk ::
      .op .dup :: (storeCell previousCell ++ (pokeMain ++ (restart l.config ++ rest)))))
    (hValid : l.Valid m) (hSlot : slot ∈ l.selected) (hAttempt : attempt < primeCount)
    (hRoom : (l.terms w).Room (base.length + 4))
    (hRestart : (l.terms w).Room (base.length + 1 + l.config.slotCount))
    (next : (l.terms w).From 0 ⟨l.picture
      (((m.rewrite slot kind).store .previous attempt).aim attempt),
        List.replicate l.config.slotCount 0 ++ (l.config.frameMarker : Int) :: base, [], printed,
          random⟩) :
    (l.terms w).From (l.linking.label writeSlotLabel) ⟨l.picture m,
      (kind.record.chunk : Int) :: (slot : Int) :: (attempt : Int) :: base, [], printed,
        random⟩ := by
  refine from_swap hCode fun hCode => ?_
  refine from_rewrite kind hCode hValid hSlot fun hCode => ?_
  have hRewritten := hValid.rewrite kind hSlot
  refine from_dup hCode (hRoom.mono (by omega)) fun hCode => ?_
  refine from_store .previous hCode hRewritten (.inr ⟨attempt, hAttempt, rfl⟩)
    (hRoom.mono (by simp)) fun hCode n _ hn => ?_
  obtain rfl : attempt = n := Int.ofNat_inj.mp hn
  refine from_aim hCode (hRewritten.store .previous hAttempt) hAttempt hRoom fun hCode => ?_
  exact from_restart hCode hRestart next

/-- A miss rewrites a slot and the attempt, and the next iteration begins. -/
theorem from_miss (hValid : l.Valid m) (hCount : w.MayFail ∨ m.cell .failures + 1 < primeCount)
    (hRoom : (l.terms w).Room (l.config.slotCount + l.pushes m + 3 + base.length))
    (hRoom' : (l.terms w).Room ((l.leftOver m base).length + 6))
    (hRestart : (l.terms w).Room ((l.leftOver m base).length + 1 + l.config.slotCount))
    (next : ∀ (offset place kind : Nat) (random₁ random₂ random₃ : σ),
      RandomSource.draw 128 l.config.randomOffsetBound random = (offset, random₁) →
      RandomSource.draw 128 l.selected.length random₁ = (place, random₂) →
      RandomSource.draw 128 kindCount random₂ = (kind, random₃) →
      l.Valid (l.afterMiss m offset place kind) → (l.terms w).From 0
        ⟨l.picture (l.afterMiss m offset place kind), List.replicate l.config.slotCount 0 ++
          (l.config.frameMarker : Int) :: l.leftOver m base, [], l.reported m printed, random₃⟩) :
    (l.terms w).From (l.linking.label failureLabel) ⟨l.picture m,
      frame l.config.frameMarker m.attempt (l.shape m) base, [], printed, random⟩ := by
  obtain ⟨-, -, -, hPart, -⟩ := l.placed_parts w
  have hSplit : (l.terms w).Placed (l.linking.label failureLabel) (.label failureLabel ::
      (callTo unwindLabel ++ (countFailure l.config l.protocol ++ (chooseAttempt l.config ++
        (chooseSlot l.selected.length ++ (chooseKind ++ (.label writeSlotLabel :: (.op .swap ::
          .op .pokeChunk :: .op .dup :: (storeCell previousCell ++ (pokeMain ++
            (restart l.config ++ []))))))))))) := by
    simp only [failurePart, List.append_assoc, List.cons_append, List.nil_append,
      List.append_nil] at hPart ⊢
    exact hPart
  refine from_label hSplit fun hCode => ?_
  refine from_takeDown hCode hRoom fun hCode => ?_
  -- the count, the attempt, the slot and the kind change one after another, and the contents
  -- stay valid at each step
  have hShown := Layout.shown_lt hValid
  refine from_countFailure hCode hValid hCount (hRoom'.mono (by simp)) fun hCounted => ?_
  have hValid₁ := hValid.store .failures hCounted
  obtain ⟨-, hRest⟩ := hCode.append
  refine from_chooseAttempt hRest hValid₁ hShown (m.store_cell_of_ne _ (by decide))
    (hRoom'.mono (by omega)) fun address₁ offset random₁ hCode hOffset => ?_
  have hNext := Nat.lt_trans (l.nextAttempt_lt m offset) l.modulus_lt
  refine from_chooseSlot hCode hValid₁ (hRoom'.mono (by simp))
    fun address₂ place random₂ hCode hPlace hPlaceLt => ?_
  have hValid₂ := hValid₁.store .lastSlot (l.slot_lt hPlaceLt)
  obtain ⟨hWrite, -, -⟩ := hCode.at_label
  refine from_chooseKind hCode hValid₂ (hRoom'.mono (by simp)) fun kind random₃ hKind hKindLt => ?_
  have hValid₃ :=
    hValid₂.store .lastKind (Nat.lt_trans hKindLt (by decide : kindCount < primeCount))
  refine from_writeBack (drawnKind kind) hWrite hValid₃ (l.slot_mem hPlaceLt) hNext
    (hRoom'.mono (by omega)) hRestart ?_
  exact next offset place kind random₁ random₂ random₃ hOffset hPlace hKind
    (hValid.afterMiss hCounted offset hPlaceLt hKindLt)

-- ---------------------------------------------------------------------------
-- From the feedback on
-- ---------------------------------------------------------------------------

/-- The feedback for a hit leads to the wait for a target. -/
theorem from_feedback_hit (hValid : l.Valid m)
    (hRoom : (l.terms w).Room (l.config.slotCount + l.pushes m + 3 + base.length))
    (hWaits : ∀ e : Engine σ, e.phase = .awaitingInput →
      l.AtTarget w (m.store .failures 0) (l.leftOver m base) printed random e → w.waits e) :
    (l.terms w).From (l.config.slotCount + 4) ⟨l.picture m, (l.protocol.successFeedback : Int) ::
      frame l.config.frameMarker m.attempt (l.shape m) base, [], printed, random⟩ := by
  have hHeight := length_frame (l := l) m base
  exact from_judge (hRoom.mono (by omega)) (fun _ => from_hit hValid hRoom hWaits)
    fun hMiss => absurd rfl hMiss

/-- Any other feedback leads to the next iteration. Here the frame is the only thing on the
stack, and its attempt is below the modulus, so nothing of it is left over. -/
theorem from_feedback_miss {v : Int} (hValid : l.Valid m)
    (hAttempt : m.attempt < l.config.attemptModulus) (hMiss : v ≠ l.protocol.successFeedback)
    (hCount : m.cell .failures + 1 < primeCount)
    (hRoom : (l.terms w).Room (l.config.slotCount + l.pushes m + 3))
    (hFew : (l.terms w).Room 6)
    (next : ∀ (offset place kind : Nat) (random₁ random₂ random₃ : σ),
      RandomSource.draw 128 l.config.randomOffsetBound random = (offset, random₁) →
      RandomSource.draw 128 l.selected.length random₁ = (place, random₂) →
      RandomSource.draw 128 kindCount random₂ = (kind, random₃) →
      l.Valid (l.afterMiss m offset place kind) → (l.terms w).From 0
        ⟨l.picture (l.afterMiss m offset place kind), List.replicate l.config.slotCount 0 ++
          [(l.config.frameMarker : Int)], [], l.reported m printed, random₃⟩) :
    (l.terms w).From (l.config.slotCount + 4) ⟨l.picture m,
      v :: frame l.config.frameMarker m.attempt (l.shape m) [], [], printed, random⟩ := by
  have hHeight := length_frame (l := l) m []
  have hLeft : l.leftOver m [] = [] := leftOver_of_lt hAttempt
  rw [List.length_nil] at hHeight
  refine from_judge (hRoom.mono (by omega)) (fun hHit => absurd hHit hMiss) fun _ => ?_
  refine from_miss hValid (.inr hCount) hRoom ?_ ?_ ?_
  · rw [hLeft]
    exact hFew
  · rw [hLeft]
    exact hRoom.mono (by rw [List.length_nil]; omega)
  · rw [hLeft]
    exact next

end Rules

end Seeker

end FactorMachine
