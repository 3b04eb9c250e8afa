import FactorMachine.Proofs.Seeker.Planning

/-!
# FactorMachine — the order of slots

A bank gives a program its least successful slots. A slot is scored by the last three of its
outcomes, or by the last ones that its window keeps if these are fewer, and slots with the same
score stay in the order of their places. So the slots are in one strict order at any time, and a
streak of failures only says how far down this order the choice goes.

A slot takes its outcomes along when it moves. Which slot an outcome goes to depends on where the
slots are at that time; what its window shows in the end does not depend on where it has been. Here
the outcomes of a slot are followed through any calls of a bank, whatever its addresses are, and
compared with the window only at the end.

## Results

* `windows_after`        — one call pushes onto the window of a slot what it records for that slot.
* `windows_afterCalls`   — so do calls in a row.
* `slotsToUpdate_ranked` — which slots are chosen after any calls.
-/

namespace FactorMachine

namespace SlotBank

-- ---------------------------------------------------------------------------
-- Scores and the order they make
-- ---------------------------------------------------------------------------

/-- Successes among the last three of these outcomes, or among fewer if fewer are kept. -/
def merit (historyLimit : Nat) (outcomes : List Bool) : Nat :=
  (outcomes.rtake (min 3 (max historyLimit 1))).count true

/-- A slot that shows the last of its outcomes is scored by them. -/
theorem score_of_shows {slot : Slot} {historyLimit : Nat} {outcomes : List Bool}
    (h : slot.outcomes.Shows historyLimit outcomes) : slot.score = merit historyLimit outcomes := by
  rw [Slot.score, merit, h.latest, List.rtake_eq_reverse_take_reverse,
    List.rtake_eq_reverse_take_reverse, List.reverse_reverse, List.count_reverse, List.take_take]
  rfl

/-- One place comes before another: it has the lower score, or with the same score the lower
number. -/
def Precedes (score : Nat → Nat) (i j : Nat) : Prop :=
  score i < score j ∨ (score i = score j ∧ i < j)

theorem Precedes.trans {score : Nat → Nat} {i j k : Nat} (h : Precedes score i j)
    (h' : Precedes score j k) : Precedes score i k := by
  unfold Precedes at *
  omega

/-- The places of a bank in order. -/
theorem pairwise_precedes (b : SlotBank) :
    (stableSort (fun i j => b.scoreAt i < b.scoreAt j) (List.range b.slots.length)).Pairwise
      (Precedes b.scoreAt) := by
  refine pairwise_stableSort_of_pairwise (fun _ _ _ h h' => h.trans h') ?_
    (List.pairwise_lt_range)
  intro i j hLt
  unfold Precedes
  split
  · rename_i hBefore
    exact .inl (of_decide_eq_true hBefore)
  · rename_i hBefore
    have hLe : b.scoreAt i ≤ b.scoreAt j := Nat.not_lt.mp fun h => hBefore (decide_eq_true h)
    omega

-- ---------------------------------------------------------------------------
-- Windows
-- ---------------------------------------------------------------------------

/-- What the slots remember of their outcomes. -/
def windows (slots : List Slot) : List (Window Bool) := slots.map Slot.outcomes

theorem windows_modify_address (slots : List Slot) (i a : Nat) :
    windows (slots.modify i fun slot => { slot with address := a }) = windows slots := by
  refine List.ext_getElem? fun j => ?_
  simp only [windows, List.getElem?_map, List.getElem?_modify]
  cases slots[j]? with
  | none => rfl
  | some slot => by_cases hSame : i = j <;> simp [hSame]

/-- A slot takes its outcomes along. -/
theorem windows_moveSlot (slots : List Slot) (i target : Nat) :
    windows (moveSlot slots i target) = windows slots := by
  unfold moveSlot
  split
  · rfl
  · dsimp only
    split <;> simp only [windows_modify_address]

theorem Places.windows {programLength : Nat} {locked chosen selected : List Nat} {b b' : SlotBank}
    (h : Places programLength locked b chosen selected b') :
    windows b'.slots = windows b.slots := by
  induction h with
  | done b => rfl
  | next _ _ ih => exact ih.trans (windows_moveSlot _ _ _)

-- ---------------------------------------------------------------------------
-- Calls
-- ---------------------------------------------------------------------------

/-- What a bank is asked for. -/
inductive Call where
  | plan (failureStreak programLength : Nat) (locked : List Nat)
  | recordOutcome (address : Nat) (instruction : Chunk) (success : Bool)

/-- The bank after a call. A plan that fails leaves what it had done. -/
def Call.after (b : SlotBank) : Call → SlotBank
  | .plan failureStreak programLength locked =>
    stateAfter ((SlotBank.plan failureStreak programLength locked).run b)
  | .recordOutcome address instruction success =>
    (b.recordOutcome address instruction success).2

/-- What a call records for the slot at a place: an outcome goes to the first slot at its
address. -/
def Call.outcomesOf (b : SlotBank) (i : Nat) : Call → List Bool
  | .plan .. => []
  | .recordOutcome address _ success =>
    if (addresses b.slots).idxOf? address = some i then [success] else []

def afterCalls (b : SlotBank) (calls : List Call) : SlotBank := calls.foldl Call.after b

/-- What calls in a row record for the slot at a place, oldest first. -/
def outcomesOf (i : Nat) : SlotBank → List Call → List Bool
  | _, [] => []
  | b, call :: calls => call.outcomesOf b i ++ outcomesOf i (call.after b) calls

theorem windows_plan (b : SlotBank) (streak programLength : Nat) (locked : List Nat) :
    windows (stateAfter ((plan streak programLength locked).run b)).slots = windows b.slots := by
  rcases plan_cases b streak programLength locked with ⟨_, _, hOk, hPlaces, -⟩ | ⟨hError, -⟩
  · rw [hOk]
    exact hPlaces.windows
  · rw [hError]
    rfl

/-- One call pushes onto the window of a slot what it records for that slot. -/
theorem windows_after (b : SlotBank) (call : Call) : windows (call.after b).slots =
    (windows b.slots).mapIdx fun i => (call.outcomesOf b i).foldl Window.push := by
  refine List.ext_getElem? fun i => ?_
  rw [List.getElem?_mapIdx]
  cases call with
  | plan streak programLength locked =>
    rw [Call.after, windows_plan]
    exact Option.map_id'.symm
  | recordOutcome address instruction success =>
    have hFirst : (addresses b.slots).idxOf? address =
        b.slots.findIdx? (·.address == address) := by
      rw [List.idxOf?, addresses, List.findIdx?_map]
      rfl
    rw [Call.after, Call.outcomesOf, hFirst, recordOutcome]
    cases b.slots.findIdx? (·.address == address) with
    | none => exact Option.map_id'.symm
    | some j =>
      simp only [windows, List.getElem?_map, List.getElem?_modify, Option.some.injEq]
      by_cases hSame : j = i
      · simp [hSame, Slot.record, Function.comp_def]
      · simp [hSame, Function.comp_def]

/-- So do calls in a row. -/
theorem windows_afterCalls (calls : List Call) : ∀ b : SlotBank,
    windows (b.afterCalls calls).slots =
      (windows b.slots).mapIdx fun i => (outcomesOf i b calls).foldl Window.push := by
  induction calls with
  | nil =>
    refine fun b => List.ext_getElem? fun i => ?_
    rw [List.getElem?_mapIdx]
    exact Option.map_id'.symm
  | cons call calls ih =>
    intro b
    have hRest := ih (call.after b)
    rw [windows_after, List.mapIdx_mapIdx] at hRest
    simp only [outcomesOf, List.foldl_append]
    exact hRest

-- ---------------------------------------------------------------------------
-- The choice
-- ---------------------------------------------------------------------------

section Choice

variable {first : SlotBank} {n historyLimit : Nat}
  (hFirst : windows first.slots = List.replicate n (.empty historyLimit)) (calls : List Call)
include hFirst

theorem length_afterCalls : (first.afterCalls calls).slots.length = n := by
  have hLength := congrArg List.length (windows_afterCalls calls first)
  rwa [windows, List.length_map, List.length_mapIdx, hFirst, List.length_replicate] at hLength

/-- A slot that had no outcomes is scored by those that it was given, wherever it has been. -/
theorem scoreAt_afterCalls {i : Nat} (hi : i < n) :
    (first.afterCalls calls).scoreAt i = merit historyLimit (outcomesOf i first calls) := by
  have hWindow : (windows (first.afterCalls calls).slots)[i]? =
      some ((outcomesOf i first calls).foldl Window.push (.empty historyLimit)) := by
    rw [windows_afterCalls, List.getElem?_mapIdx, hFirst, List.getElem?_replicate, if_pos hi]
    rfl
  rw [windows, List.getElem?_map] at hWindow
  obtain ⟨slot, hSlot, hOutcomes⟩ := Option.map_eq_some_iff.mp hWindow
  have hShows : slot.outcomes.Shows historyLimit (outcomesOf i first calls) := by
    rw [hOutcomes]
    exact (Window.shows_empty historyLimit).pushAll _
  rw [scoreAt, hSlot]
  exact score_of_shows hShows

end Choice

/-- A longer streak chooses more slots and the same ones first. -/
theorem slotsToUpdate_prefix (b : SlotBank) {s t : Nat} (h : s ≤ t) :
    b.slotsToUpdate s <+: b.slotsToUpdate t := by
  refine List.take_prefix_take_left ?_
  unfold selectedCount
  omega

/-- What is not chosen comes after what is. -/
theorem precedes_of_not_mem (b : SlotBank) {streak i j : Nat} (hi : i ∈ b.slotsToUpdate streak)
    (hj : j < b.slots.length) (hNot : j ∉ b.slotsToUpdate streak) : Precedes b.scoreAt i j := by
  have hOrder := b.pairwise_precedes
  have hMem : j ∈ stableSort (fun i j => b.scoreAt i < b.scoreAt j) (List.range b.slots.length) :=
    (perm_stableSort _ _).mem_iff.mpr (List.mem_range.mpr hj)
  rw [← List.take_append_drop (b.selectedCount streak) (stableSort _ _)] at hOrder hMem
  have hLeft := (List.mem_append.mp hMem).resolve_left hNot
  exact (List.pairwise_append.mp hOrder).2.2 i hi j hLeft

/-- **Slots are chosen in one order.** After any calls of a bank whose slots had no outcomes, there
is an order of its places, by the successes among the last outcomes of each slot that count and then
by number. Whatever the streak of failures is, the choice is the beginning of this order, as far as
the streak and the number of slots allow. So no slot that is not chosen comes before one that is,
and a shorter streak chooses the beginning of what a longer one does. -/
theorem slotsToUpdate_ranked (places : List Nat) (instruction : Chunk)
    (historyLimit modificationLimit : Nat) (calls : List Call) :
    let first := start places instruction historyLimit modificationLimit
    let b := first.afterCalls calls
    let rank := Precedes fun i => merit historyLimit (outcomesOf i first calls)
    (∃ order : List Nat, order.Perm (List.range places.length) ∧ order.Pairwise rank ∧
      ∀ streak, b.slotsToUpdate streak = order.take (min places.length (1 + streak / 2))) ∧
    (∀ streak, ∀ i ∈ b.slotsToUpdate streak, ∀ j < places.length, j ∉ b.slotsToUpdate streak →
      rank i j) ∧
    ∀ s t, s ≤ t → b.slotsToUpdate s <+: b.slotsToUpdate t := by
  intro first b rank
  have hFirst : windows first.slots = List.replicate places.length (.empty historyLimit) := by
    simp [first, windows, start, Slot.start, Function.comp_def]
  have hLength : b.slots.length = places.length := length_afterCalls hFirst calls
  have hRank : ∀ {i j}, i < places.length → j < places.length → Precedes b.scoreAt i j →
      rank i j := by
    intro i j hi hj h
    unfold Precedes at h
    rwa [scoreAt_afterCalls hFirst calls hi, scoreAt_afterCalls hFirst calls hj] at h
  refine ⟨⟨stableSort (fun i j => b.scoreAt i < b.scoreAt j) (List.range b.slots.length),
    ?_, ?_, ?_⟩, ?_, ?_⟩
  · rw [← hLength]
    exact perm_stableSort _ _
  · refine b.pairwise_precedes.imp_of_mem fun {i j} hi hj h => ?_
    rw [(perm_stableSort _ _).mem_iff, List.mem_range, hLength] at hi hj
    exact hRank hi hj h
  · intro streak
    rw [slotsToUpdate, selectedCount, hLength]
  · intro streak i hi j hj hNot
    have hRange := (b.slotsToUpdate_spec streak).2 i hi
    exact hRank (hLength ▸ hRange) hj (b.precedes_of_not_mem hi (hLength ▸ hj) hNot)
  · exact fun s t h => b.slotsToUpdate_prefix h

/-- The first slot has traded places with the second when it is given its second outcome. -/
example :
    let first := start [1, 2] 0 10 20
    let calls : List Call := [.recordOutcome 1 81 true, .plan 0 4 [3], .plan 0 4 [3],
      .recordOutcome 2 81 true]
    addresses (first.afterCalls calls).slots = [2, 1] ∧ outcomesOf 0 first calls = [true, true] ∧
      (first.afterCalls calls).slotsToUpdate 2 = [1, 0] := by
  decide

end SlotBank

end FactorMachine
