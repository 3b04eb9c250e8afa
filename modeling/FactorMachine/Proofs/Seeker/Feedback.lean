import FactorMachine.Proofs.Seeker.Frame

/-!
# FactorMachine — what a goal-seeker does with the words it is given

A goal-seeker waits at two places: for the feedback on the attempt that it has just printed, and
after a hit for the next target. This module says what leads to the first of these waits, and
what a hit and a target lead to, for every frame.

* A hit takes the frame down, clears the failure count and waits for a target.
* A target is written to address zero and to the data cells, and the next iteration begins.

An attempt that equals the frame marker makes `unwind` stop early when it is not on top of its
frame. Then the rest of the frame stays on the stack below the next one; it is what `leftOver`
says.

## Results

* `from_iteration` — from the beginning of an iteration to the wait for feedback.
* `from_hit`       — from a hit to the wait for a target.
* `from_target`    — from a target to the next iteration.
-/

namespace FactorMachine.Seeker

open Statement Terms

-- ---------------------------------------------------------------------------
-- Constants of the program
-- ---------------------------------------------------------------------------

namespace Layout

variable (l : Layout)

theorem push_lt {n : Nat} (h : .push n ∈ l.textStatements) : n < primeCount := by
  obtain ⟨r, hr, hWellFormed⟩ := l.encodable _ h
  cases hr
  obtain ⟨k, hk, hLt⟩ := hWellFormed
  cases hk
  exact hLt

theorem pushLabel_lt {name : String} (h : .pushLabel name ∈ l.textStatements) :
    l.linking.label name < primeCount := by
  obtain ⟨r, hr, hWellFormed⟩ := l.encodable _ h
  cases hr
  obtain ⟨k, hk, hLt⟩ := hWellFormed
  cases hk
  exact hLt

/-- A statement of one of the parts is a statement of the text. -/
theorem mem_text {s : Statement} (hCell : s.makesCell = true)
    (h : s ∈ body l.config l.protocol l.selected.length) : s ∈ l.textStatements :=
  List.mem_filter.mpr ⟨h, hCell⟩

theorem modulus_lt : l.config.attemptModulus < primeCount :=
  l.push_lt (l.mem_text rfl (by simp [body, failurePart, chooseAttempt]))

theorem increment_lt : l.config.attemptIncrement < primeCount :=
  l.push_lt (l.mem_text rfl (by simp [body, failurePart, chooseAttempt]))

theorem offsetBound_lt : l.config.randomOffsetBound < primeCount :=
  l.push_lt (l.mem_text rfl (by simp [body, failurePart, chooseAttempt]))

theorem selectedCount_lt : l.selected.length < primeCount :=
  l.push_lt (l.mem_text rfl (by simp [body, failurePart, chooseSlot]))

/-- The slots come before the text, whose labels are pushed. -/
theorem slotCount_lt : l.config.slotCount < primeCount := by
  -- the address of the failure path is pushed, and it is beyond the slots
  have hLabel : l.linking.label failureLabel < primeCount :=
    l.pushLabel_lt (l.mem_text rfl (by simp [body, branchIfFalse]))
  obtain ⟨-, -, -, hFailure, -⟩ := l.placed_parts (σ := Unit) (.idle 0)
  obtain ⟨⟨-, hText⟩, -⟩ := hFailure
  obtain ⟨r, hr⟩ := Option.isSome_iff_exists.mp hText
  exact Nat.lt_trans (text_lt hr).1 hLabel

theorem constants_possible : 2 ≤ l.config.attemptModulus ∧ 0 < l.config.randomOffsetBound ∧
    l.config.attemptModulus ≤ l.config.frameMarker := by
  have hPossible := l.possible
  unfold SeekerBuilder.layoutProblem? at hPossible
  split at hPossible
  · cases hPossible
  · split at hPossible
    · cases hPossible
    · split at hPossible
      · cases hPossible
      · omega

-- ---------------------------------------------------------------------------
-- The two waits
-- ---------------------------------------------------------------------------

variable {σ : Type} (w : Watch σ) (m : Contents) (base : List Word) (printed : List Word)
  (random : σ)

/-- The engine is at the wait for feedback on the attempt that it has just printed. -/
def AtFeedback : Engine σ → Prop :=
  (l.terms w).Shows ⟨l.picture m, frame l.config.frameMarker m.attempt (l.shape m) base, [],
    ((l.shape m).shown m.attempt : Int) :: printed, random⟩ (l.config.slotCount + 4)

/-- The engine is at the wait for the next target. -/
def AtTarget : Engine σ → Prop :=
  (l.terms w).Shows ⟨l.picture m, base, [], printed, random⟩ (l.config.slotCount + 20)

variable {l w m base printed random}

theorem AtFeedback.of_depth {w' : Watch σ} {e : Engine σ}
    (h : l.AtFeedback w m base printed random e) (hDepth : w.limit = w'.limit) :
    l.AtFeedback w' m base printed random e := shows_of_depth h hDepth

theorem AtTarget.of_depth {w' : Watch σ} {e : Engine σ}
    (h : l.AtTarget w m base printed random e) (hDepth : w.limit = w'.limit) :
    l.AtTarget w' m base printed random e := shows_of_depth h hDepth

variable (l m base)

/-- What stays on the stack when a frame is taken down. -/
def leftOver : List Word :=
  if 0 < (l.shape m).above ∧ m.attempt = l.config.frameMarker then
    List.replicate (l.shape m).below 0 ++ (l.config.frameMarker : Int) :: base
  else base

theorem length_leftOver_le : (l.leftOver m base).length ≤
    l.config.slotCount + l.pushes m + 1 + base.length := by
  have hZeros := l.zeros_shape_le m
  unfold Shape.zeros at hZeros
  unfold leftOver
  split
  · simp
    omega
  · omega

end Layout

-- ---------------------------------------------------------------------------
-- From the beginning of an iteration to the feedback
-- ---------------------------------------------------------------------------

section Rules

variable {σ : Type} [RandomSource σ] {l : Layout} {w : Watch σ} {m : Contents}
  {stack base : List Word} {printed : List Word} {random : σ} {address : Nat}
  {rest : List Statement}

theorem length_frame (m : Contents) (base : List Word) :
    (frame l.config.frameMarker m.attempt (l.shape m) base).length ≤
      l.config.slotCount + l.pushes m + 2 + base.length := by
  have hZeros := l.zeros_shape_le m
  rw [frame_eq_cons, List.length_cons, length_frameBelow]
  omega

/-- An iteration prints what is on top of its frame and waits for feedback. -/
theorem from_iteration (hValid : l.Valid m)
    (hRoom : (l.terms w).Room (l.config.slotCount + l.pushes m + 2 + base.length))
    (hWaits : ∀ e : Engine σ, e.phase = .awaitingInput → l.AtFeedback w m base printed random e →
      w.waits e) :
    (l.terms w).From 0 ⟨l.picture m, List.replicate l.config.slotCount 0 ++
      (l.config.frameMarker : Int) :: base, [], printed, random⟩ := by
  obtain ⟨hCode, -⟩ := l.placed_parts w
  refine from_main hValid (hRoom.mono (by omega)) ?_
  have hLength := length_frame (l := l) m base
  rw [frame_eq_cons] at hLength ⊢
  refine from_dup hCode (hRoom.mono hLength) fun hCode => ?_
  refine from_print hCode fun hCode => ?_
  rw [← frame_eq_cons]
  exact from_input hCode hWaits

/-- The feedback is compared with that for a hit. -/
theorem from_judge {v : Int} (hRoom : (l.terms w).Room (stack.length + 1))
    (hit : v = l.protocol.successFeedback → (l.terms w).From (l.config.slotCount + 9)
      ⟨l.picture m, stack, [], printed, random⟩)
    (miss : v ≠ l.protocol.successFeedback → (l.terms w).From (l.linking.label failureLabel)
      ⟨l.picture m, stack, [], printed, random⟩) :
    (l.terms w).From (l.config.slotCount + 4)
      ⟨l.picture m, v :: stack, [], printed, random⟩ := by
  obtain ⟨-, hCode, -, hFailure, -⟩ := l.placed_parts w
  refine from_push hCode hRoom fun hCode => ?_
  exact from_branchUnlessEqual hCode (Placed.enters hFailure) hRoom miss fun hSame _ => hit hSame

-- ---------------------------------------------------------------------------
-- Taking a frame down
-- ---------------------------------------------------------------------------

theorem replicate_ne_marker (n : Nat) :
    ∀ x ∈ List.replicate n (0 : Int), x ≠ (l.config.frameMarker : Int) := by
  obtain ⟨hModulus, -, hMarker⟩ := l.constants_possible
  intro x hx
  rw [(List.mem_replicate.mp hx).2]
  omega

/-- A frame is its top word, words that are no marker, a marker and what is left over. -/
theorem frame_eq_leftOver (m : Contents) (base : List Word) : ∃ below : List Word,
    frame l.config.frameMarker m.attempt (l.shape m) base =
      ((l.shape m).shown m.attempt : Int) ::
        (below ++ (l.config.frameMarker : Int) :: l.leftOver m base) ∧
      ∀ x ∈ below, x ≠ (l.config.frameMarker : Int) := by
  unfold Layout.leftOver
  generalize l.shape m = s
  obtain ⟨above, below⟩ := s
  cases above with
  | zero =>
    -- the attempt is on top, where it is not compared with the marker
    refine ⟨List.replicate below 0, ?_, replicate_ne_marker below⟩
    rw [if_neg (by simp)]
    rfl
  | succ n =>
    by_cases hSame : m.attempt = l.config.frameMarker
    · -- the attempt is taken for the marker
      refine ⟨List.replicate n 0, ?_, replicate_ne_marker n⟩
      rw [if_pos ⟨Nat.succ_pos n, hSame⟩, hSame]
      rfl
    · -- neither the zeros nor the attempt are the marker
      refine ⟨List.replicate n 0 ++ (m.attempt : Int) :: List.replicate below 0, ?_, ?_⟩
      · rw [if_neg fun h => hSame h.2]
        unfold frame
        dsimp only
        rw [List.replicate_succ, List.cons_append, List.append_assoc, List.cons_append]
        rfl
      · intro x hx
        rcases List.mem_append.mp hx with hZero | hRest
        · exact replicate_ne_marker n x hZero
        · rcases List.mem_cons.mp hRest with rfl | hZero
          · exact fun hEq => hSame (Int.ofNat_inj.mp hEq)
          · exact replicate_ne_marker below x hZero

/-- An attempt below the modulus is never taken for the marker. -/
theorem leftOver_of_lt {base : List Word} (hAttempt : m.attempt < l.config.attemptModulus) :
    l.leftOver m base = base := by
  obtain ⟨-, -, hMarker⟩ := l.constants_possible
  unfold Layout.leftOver
  rw [if_neg]
  rintro ⟨-, hSame⟩
  omega

/-- A call of the routine leaves the top of the frame on what remains. -/
theorem from_takeDown (hCode : (l.terms w).Placed address (callTo unwindLabel ++ rest))
    (hRoom : (l.terms w).Room (l.config.slotCount + l.pushes m + 3 + base.length))
    (next : (l.terms w).Placed (address + 2) rest → (l.terms w).From (address + 2)
      ⟨l.picture m, ((l.shape m).shown m.attempt : Int) :: l.leftOver m base, [], printed,
        random⟩) :
    (l.terms w).From address ⟨l.picture m,
      frame l.config.frameMarker m.attempt (l.shape m) base, [], printed, random⟩ := by
  obtain ⟨-, -, -, -, hUnwind⟩ := l.placed_parts w
  have hHeight := length_frame (l := l) m base
  obtain ⟨below, hFrame, hBelow⟩ := frame_eq_leftOver (l := l) m base
  rw [hFrame] at hHeight ⊢
  refine from_callTo hCode (Placed.enters hUnwind) (hRoom.mono (by omega)) (Nat.zero_le _)
    fun hCode => ?_
  refine from_unwind hBelow (hRoom.mono ?_) (next hCode)
  simp only [List.length_cons, List.length_append] at hHeight
  omega

-- ---------------------------------------------------------------------------
-- Writes that stay within the contents
-- ---------------------------------------------------------------------------

theorem from_store {calls : List Nat} {v : Int} (d : DataCell)
    (hCode : (l.terms w).Placed address (storeCell d.label ++ rest)) (hValid : l.Valid m)
    (hNumbered : w.MayFail ∨ ∃ n : Nat, n < primeCount ∧ v = n)
    (hRoom : (l.terms w).Room (stack.length + 2))
    (next : (l.terms w).Placed (address + 6) rest → ∀ n : Nat, n < primeCount → v = n →
      (l.terms w).From (address + 6) ⟨l.picture (m.store d n), stack, calls, printed, random⟩) :
    (l.terms w).From address ⟨l.picture m, v :: stack, calls, printed, random⟩ :=
  from_storeCell (fun n => l.picture (m.store d n)) hCode hNumbered
    (fun _ => by
      show (l.picture m (l.linking.label d.label)).isSome
      rw [l.picture_cell]
      rfl)
    (l.update_cell m d) (fun n hn _ => ⟨_, hValid.store d hn, rfl⟩) hRoom next

theorem from_aim {calls : List Nat} {n : Nat}
    (hCode : (l.terms w).Placed address (pokeMain ++ rest)) (hValid : l.Valid m)
    (hn : n < primeCount) (hRoom : (l.terms w).Room (stack.length + 4))
    (next : (l.terms w).Placed (address + 8) rest → (l.terms w).From (address + 8)
      ⟨l.picture (m.aim n), stack, calls, printed, random⟩) :
    (l.terms w).From address ⟨l.picture m, (n : Int) :: stack, calls, printed, random⟩ :=
  from_pokeMain hCode hn
    (fun h => l.enters_main _ h)
    (l.update_attempt m n) (fun _ => ⟨_, hValid.aim hn, rfl⟩) hRoom next

theorem from_rewrite {calls : List Nat} {a : Nat} (kind : SlotKind)
    (hCode : (l.terms w).Placed address (.op .pokeChunk :: rest)) (hValid : l.Valid m)
    (hSelected : a ∈ l.selected)
    (next : (l.terms w).Placed (address + 1) rest → (l.terms w).From (address + 1)
      ⟨l.picture (m.rewrite a kind), stack, calls, printed, random⟩) :
    (l.terms w).From address ⟨l.picture m, (a : Int) :: (kind.record.chunk : Int) :: stack, calls,
      printed, random⟩ := by
  obtain ⟨hFirst, hLast⟩ := l.selected_range a hSelected
  refine from_pokeChunk hCode kind.wellFormed (fun _ => ?_) (l.update_slot m kind hFirst hLast)
    (fun _ => ⟨_, hValid.rewrite kind hSelected, rfl⟩) next
  rw [l.picture_slot m hFirst hLast]
  rfl

-- ---------------------------------------------------------------------------
-- After a hit
-- ---------------------------------------------------------------------------

/-- A hit takes the frame down, clears the failure count and waits for a target. -/
theorem from_hit (hValid : l.Valid m)
    (hRoom : (l.terms w).Room (l.config.slotCount + l.pushes m + 3 + base.length))
    (hWaits : ∀ e : Engine σ, e.phase = .awaitingInput →
      l.AtTarget w (m.store .failures 0) (l.leftOver m base) printed random e → w.waits e) :
    (l.terms w).From (l.config.slotCount + 9) ⟨l.picture m,
      frame l.config.frameMarker m.attempt (l.shape m) base, [], printed, random⟩ := by
  obtain ⟨-, -, hCode, -, -⟩ := l.placed_parts w
  have hLeft := l.length_leftOver_le m base
  refine from_label hCode fun hCode => ?_
  refine from_takeDown hCode hRoom fun hCode => ?_
  refine from_drop hCode fun hCode => ?_
  refine from_push hCode (hRoom.mono (by omega)) fun hCode => ?_
  refine from_store .failures hCode hValid (.inr ⟨0, by decide, rfl⟩) (hRoom.mono (by omega))
    fun hCode n _ hn => ?_
  obtain rfl : n = 0 := (Int.ofNat_inj.mp hn).symm
  exact from_input hCode hWaits

namespace Layout

/-- The contents after a target has been read. -/
def retarget (l : Layout) (m : Contents) (target : Nat) : Contents :=
  (((m.store .previous target).aim target).store .lastSlot (l.linking.slot .fallback)).store
    .lastKind nopKind

section Retarget

variable (l : Layout) (m : Contents) (target : Nat)

theorem retarget_previous : (l.retarget m target).cell .previous = target := by
  simp [retarget, Contents.store_cell_of_ne]

theorem retarget_failures : (l.retarget m target).cell .failures = m.cell .failures := by
  simp [retarget, Contents.store_cell_of_ne]

theorem retarget_lastSlot : (l.retarget m target).cell .lastSlot = l.linking.slot .fallback := by
  simp [retarget, Contents.store_cell_of_ne]

theorem retarget_lastKind : (l.retarget m target).cell .lastKind = nopKind := by
  simp [retarget]

end Retarget

theorem fallback_lt (l : Layout) : l.linking.slot .fallback < primeCount :=
  Nat.lt_of_le_of_lt (l.selected_range _ l.slot_fallback).2 l.slotCount_lt

theorem Valid.retarget {target : Nat} (hValid : l.Valid m) (hTarget : target < primeCount) :
    l.Valid (l.retarget m target) :=
  (((hValid.store .previous hTarget).aim hTarget).store .lastSlot l.fallback_lt).store .lastKind
    (by decide)

end Layout

/-- A target becomes the attempt, and the next iteration begins. -/
theorem from_target {v : Int} (hValid : l.Valid m)
    (hNumbered : w.MayFail ∨ ∃ n : Nat, n < primeCount ∧ v = n)
    (hRoom : (l.terms w).Room (base.length + 4))
    (hRestart : (l.terms w).Room (base.length + 1 + l.config.slotCount))
    (next : ∀ target : Nat, target < primeCount → v = target → (l.terms w).From 0
      ⟨l.picture (l.retarget m target), List.replicate l.config.slotCount 0 ++
        (l.config.frameMarker : Int) :: base, [], printed, random⟩) :
    (l.terms w).From (l.config.slotCount + 20)
      ⟨l.picture m, v :: base, [], printed, random⟩ := by
  obtain ⟨-, -, hPart, -, -⟩ := l.placed_parts w
  have hSplit : (l.terms w).Placed (l.config.slotCount + 9)
      ((.label successLabel :: callTo unwindLabel ++ [.op .drop, .push 0] ++
        storeCell failuresCell ++ [.op .input]) ++
      (.op .dup :: (storeCell previousCell ++ (pokeMain ++ (.pushSlot .fallback ::
        (storeCell lastSlotCell ++ (.push nopKind :: (storeCell lastKindCell ++
          (restart l.config ++ []))))))))) := by
    simp only [successPart, ops, List.map_cons, List.map_nil, List.append_assoc, List.cons_append,
      List.nil_append, List.append_nil] at hPart ⊢
    exact hPart
  -- the part of the success path that comes after the wait
  obtain ⟨-, hCode⟩ := hSplit.append
  refine from_dup hCode (hRoom.mono (by omega)) fun hCode => ?_
  refine from_store .previous hCode hValid hNumbered (hRoom.mono (by simp))
    fun hCode target hTarget hv => ?_
  subst hv
  have hStored := hValid.store .previous hTarget
  refine from_aim hCode hStored hTarget hRoom fun hCode => ?_
  refine from_pushSlot hCode (hRoom.mono (by omega)) fun hCode => ?_
  refine from_store .lastSlot hCode (hStored.aim hTarget) (.inr ⟨_, l.fallback_lt, rfl⟩)
    (hRoom.mono (by omega)) fun hCode slot _ hSlot => ?_
  obtain rfl : l.linking.slot .fallback = slot := Int.ofNat_inj.mp hSlot
  refine from_push hCode (hRoom.mono (by omega)) fun hCode => ?_
  refine from_store .lastKind hCode ((hStored.aim hTarget).store .lastSlot l.fallback_lt)
    (.inr ⟨nopKind, by decide, rfl⟩) (hRoom.mono (by omega)) fun hCode kind _ hKind => ?_
  obtain rfl : nopKind = kind := Int.ofNat_inj.mp hKind
  exact from_restart hCode hRestart (next target hTarget rfl)

end Rules

end FactorMachine.Seeker
