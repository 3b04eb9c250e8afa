import FactorMachine.Proofs.Seeker.Layout

/-!
# FactorMachine — the frame on the operand stack

An iteration of a goal-seeker runs in a frame: a marker with a zero above it for each slot,
and the attempt on top. The slots then run in order. One that holds a push puts one more zero
on top, and one that adds takes a zero away, from above the attempt if there is one there and
else from below. So the stack has zeros above the attempt, the attempt, zeros below it and the
marker, and a `Shape` counts the zeros.

The routine `unwind` takes a frame down to the first word that equals the marker, and `restart`
puts up the next one.

## Results

* `from_slots`   — the slots leave the frame in the shape that they have.
* `from_unwind`  — everything between the top and the marker is dropped.
* `from_restart` — the next frame is put up.
-/

namespace FactorMachine.Seeker

open Statement Terms

-- ---------------------------------------------------------------------------
-- Shapes
-- ---------------------------------------------------------------------------

/-- The zeros above and below the attempt. -/
structure Shape where
  above : Nat
  below : Nat
  deriving DecidableEq, Repr

/-- The shape after a slot. -/
def Shape.after (s : Shape) : SlotKind → Shape
  | .nop => s
  | .push => ⟨s.above + 1, s.below⟩
  | .add => if s.above = 0 then ⟨0, s.below - 1⟩ else ⟨s.above - 1, s.below⟩

/-- The zeros that are on the stack. -/
def Shape.zeros (s : Shape) : Nat := s.above + s.below

/-- The words of a frame, top first, on top of what was there before. -/
def frame (marker attempt : Nat) (s : Shape) (base : List Word) : List Word :=
  List.replicate s.above 0 ++
    (attempt : Int) :: (List.replicate s.below 0 ++ (marker : Int) :: base)

/-- The word on top of a frame. -/
def Shape.shown (s : Shape) (attempt : Nat) : Nat := if s.above = 0 then attempt else 0

/-- The words of a frame below its top. -/
def frameBelow (marker attempt : Nat) (s : Shape) (base : List Word) : List Word :=
  if s.above = 0 then List.replicate s.below 0 ++ (marker : Int) :: base
  else List.replicate (s.above - 1) 0 ++
    (attempt : Int) :: (List.replicate s.below 0 ++ (marker : Int) :: base)

theorem frame_eq_cons (marker attempt : Nat) (s : Shape) (base : List Word) :
    frame marker attempt s base = (s.shown attempt : Int) :: frameBelow marker attempt s base := by
  obtain ⟨above, below⟩ := s
  cases above with
  | zero => rfl
  | succ n => rfl

theorem length_frameBelow (marker attempt : Nat) (s : Shape) (base : List Word) :
    (frameBelow marker attempt s base).length = s.zeros + 1 + base.length := by
  obtain ⟨above, below⟩ := s
  unfold frameBelow Shape.zeros
  split
  · simp at *
    omega
  · simp at *
    omega

/-- An addition joins the two words on top of a frame. As long as there is a zero below the
attempt, one of the two is a zero. -/
theorem frame_add (marker attempt : Nat) {s : Shape} (base : List Word) (hBelow : 0 < s.below) :
    ∃ (x y : Int) (rest : List Word), frame marker attempt s base = y :: x :: rest ∧
      frame marker attempt (s.after .add) base = (x + y) :: rest ∧ 0 ≤ x + y ∧ x + y ≤ attempt := by
  have hAttempt : (0 : Int) ≤ attempt := Int.natCast_nonneg attempt
  obtain ⟨above, below⟩ := s
  obtain ⟨n, rfl⟩ : ∃ n, below = n + 1 := ⟨below - 1, by simp at hBelow; omega⟩
  match above with
  -- the attempt is on top, and the zero below it goes
  | 0 =>
    refine ⟨0, attempt, _, rfl, ?_, by omega, by omega⟩
    rw [Int.zero_add]
    rfl
  -- the zero above the attempt goes
  | 1 =>
    refine ⟨attempt, 0, _, rfl, ?_, by omega, by omega⟩
    rw [Int.add_zero]
    rfl
  -- two zeros above the attempt become one
  | k + 2 => exact ⟨0, 0, _, rfl, rfl, by omega, by omega⟩

/-- The shape that slots at consecutive addresses leave behind. -/
def shapeFrom (slots : Nat → SlotKind) (s : Shape) (first count : Nat) : Shape :=
  (List.range' first count).foldl (fun s a => s.after (slots a)) s

/-- How many slots at consecutive addresses hold a push. -/
def pushesFrom (slots : Nat → SlotKind) (first count : Nat) : Nat :=
  (List.range' first count).countP fun a => slots a = .push

theorem shapeFrom_succ (slots : Nat → SlotKind) (s : Shape) (first count : Nat) :
    shapeFrom slots s first (count + 1) =
      shapeFrom slots (s.after (slots first)) (first + 1) count := rfl

theorem pushesFrom_succ (slots : Nat → SlotKind) (first count : Nat) :
    pushesFrom slots first (count + 1) =
      pushesFrom slots (first + 1) count + if slots first = .push then 1 else 0 := by
  unfold pushesFrom
  rw [List.range'_succ, List.countP_cons]
  simp only [decide_eq_true_eq]

theorem zeros_after_le (s : Shape) (kind : SlotKind) :
    (s.after kind).zeros ≤ s.zeros + if kind = .push then 1 else 0 := by
  obtain ⟨above, below⟩ := s
  cases kind with
  | nop => exact le_refl _
  | push => show above + 1 + below ≤ above + below + 1; omega
  | add =>
    show (if above = 0 then (⟨0, below - 1⟩ : Shape) else ⟨above - 1, below⟩).zeros ≤
      above + below + 0
    split
    · show 0 + (below - 1) ≤ _
      omega
    · show above - 1 + below ≤ _
      omega

/-- Every zero beyond those that a frame starts with was put there by a push. -/
theorem zeros_shapeFrom_le (slots : Nat → SlotKind) (s : Shape) (first count : Nat) :
    (shapeFrom slots s first count).zeros ≤ s.zeros + pushesFrom slots first count := by
  induction count generalizing s first with
  | zero => exact Nat.le_add_right _ _
  | succ count ih =>
    rw [shapeFrom_succ, pushesFrom_succ]
    have hRest := ih (s.after (slots first)) (first + 1)
    have hFirst := zeros_after_le s (slots first)
    omega

/-- Without additions every push leaves its zero there. -/
theorem zeros_shapeFrom {slots : Nat → SlotKind} (hAdd : ∀ a, slots a ≠ .add) (s : Shape)
    (first count : Nat) :
    (shapeFrom slots s first count).zeros = s.zeros + pushesFrom slots first count := by
  induction count generalizing s first with
  | zero => rfl
  | succ count ih =>
    have hFirst : (s.after (slots first)).zeros =
        s.zeros + if slots first = .push then 1 else 0 := by
      cases hKind : slots first with
      | nop => rfl
      | push =>
        show s.above + 1 + s.below = s.above + s.below + 1
        omega
      | add => exact absurd hKind (hAdd first)
    rw [shapeFrom_succ, pushesFrom_succ, ih, hFirst]
    omega

namespace Layout

/-- The shape of the frame once all slots have run. -/
def shape (l : Layout) (m : Contents) : Shape :=
  shapeFrom m.slots ⟨0, l.config.slotCount⟩ 1 l.config.slotCount

/-- How many slots hold a push. -/
def pushes (l : Layout) (m : Contents) : Nat := pushesFrom m.slots 1 l.config.slotCount

theorem zeros_shape_le (l : Layout) (m : Contents) :
    (l.shape m).zeros ≤ l.config.slotCount + l.pushes m := by
  have h := zeros_shapeFrom_le m.slots ⟨0, l.config.slotCount⟩ 1 l.config.slotCount
  have hStart : Shape.zeros ⟨0, l.config.slotCount⟩ = l.config.slotCount := Nat.zero_add _
  rw [hStart] at h
  exact h

end Layout

-- ---------------------------------------------------------------------------
-- The slots
-- ---------------------------------------------------------------------------

section Rules

variable {σ : Type} [RandomSource σ] {l : Layout} {w : Watch σ} {m : Contents}
  {stack base : List Word} {calls : List Nat}
  {printed : List Word} {random : σ} {address : Nat} {rest : List Statement}

/-- One slot. An addition finds a zero, above the attempt or below it. -/
theorem from_slot {s : Shape} (hValid : l.Valid m) (hFirst : 1 ≤ address)
    (hLast : address ≤ l.config.slotCount) (hBelow : 0 < s.below)
    (hRoom : (l.terms w).Room
      (s.zeros + 1 + base.length + if m.slots address = .push then 1 else 0))
    (next : (l.terms w).From (address + 1)
      ⟨l.picture m, frame l.config.frameMarker m.attempt (s.after (m.slots address)) base, calls,
        printed, random⟩) :
    (l.terms w).From address
      ⟨l.picture m, frame l.config.frameMarker m.attempt s base, calls, printed, random⟩ := by
  have hCell := l.picture_slot m hFirst hLast
  have hAttempt : (m.attempt : Int) < primeCount := Int.ofNat_lt.mpr hValid.attempt
  have hLimit : (primeCount : Int) ≤ 2 ^ 127 := by decide
  cases hKind : m.slots address with
  | nop =>
    rw [hKind] at hCell next
    exact from_cell_nop (fun _ => hCell) next
  | push =>
    rw [hKind] at hCell next hRoom
    refine from_cell_push (fun _ => hCell) (hRoom.mono ?_) next
    rw [frame_eq_cons, List.length_cons, length_frameBelow, if_pos rfl]
  | add =>
    rw [hKind] at hCell next hRoom
    rw [if_neg (by simp)] at hRoom
    obtain ⟨x, y, rest, hBefore, hAfter, hLow, hHigh⟩ :=
      frame_add l.config.frameMarker m.attempt base hBelow
    have hLength := congrArg List.length hBefore
    rw [frame_eq_cons, List.length_cons, length_frameBelow, List.length_cons,
      List.length_cons] at hLength
    rw [hAfter] at next
    rw [hBefore]
    exact from_cell_add (fun _ => hCell) (by omega) (by omega) (hRoom.mono (by omega)) next

theorem below_after (s : Shape) (kind : SlotKind) : s.below ≤ (s.after kind).below + 1 := by
  cases kind with
  | nop => exact Nat.le_succ _
  | push => exact Nat.le_succ _
  | add =>
    show s.below ≤
      (if s.above = 0 then (⟨0, s.below - 1⟩ : Shape) else ⟨s.above - 1, s.below⟩).below + 1
    split
    · show s.below ≤ s.below - 1 + 1
      omega
    · exact Nat.le_succ _

/-- Slots in a row, with a zero below the attempt for each. -/
theorem from_slots (s : Shape) {count : Nat} (hValid : l.Valid m) (hFirst : 1 ≤ address)
    (hLast : address + count = l.config.slotCount + 1) (hBelow : count ≤ s.below)
    (hRoom : (l.terms w).Room
      (s.zeros + 1 + base.length + pushesFrom m.slots address count))
    (next : (l.terms w).From (l.config.slotCount + 1)
      ⟨l.picture m, frame l.config.frameMarker m.attempt (shapeFrom m.slots s address count) base,
        calls, printed, random⟩) :
    (l.terms w).From address
      ⟨l.picture m, frame l.config.frameMarker m.attempt s base, calls, printed, random⟩ := by
  induction count generalizing s address with
  | zero =>
    obtain rfl : address = l.config.slotCount + 1 := hLast
    exact next
  | succ count ih =>
    rw [pushesFrom_succ] at hRoom
    -- each slot uses up at most one zero below the attempt, so there is one for each that is left
    refine from_slot hValid hFirst (by omega) (by omega) (hRoom.mono (by omega)) ?_
    have hZeros := zeros_after_le s (m.slots address)
    have hZero := below_after s (m.slots address)
    exact ih _ (by omega) (by omega) (by omega) (hRoom.mono (by omega)) next

/-- An iteration up to the first statement after the slots. -/
theorem from_main (hValid : l.Valid m)
    (hRoom : (l.terms w).Room
      (l.config.slotCount + 1 + base.length + l.pushes m))
    (next : (l.terms w).From (l.config.slotCount + 1)
      ⟨l.picture m, frame l.config.frameMarker m.attempt (l.shape m) base, calls, printed,
        random⟩) :
    (l.terms w).From 0
      ⟨l.picture m, List.replicate l.config.slotCount 0 ++ (l.config.frameMarker : Int) :: base,
        calls, printed, random⟩ := by
  refine from_cell_push (fun _ => l.picture_zero m) (hRoom.mono ?_) ?_
  · simp
    omega
  · have hZeros : Shape.zeros ⟨0, l.config.slotCount⟩ = l.config.slotCount := Nat.zero_add _
    exact from_slots ⟨0, l.config.slotCount⟩ hValid (le_refl 1) (Nat.add_comm _ _)
      (le_refl _) (by rw [hZeros]; exact hRoom) next

-- ---------------------------------------------------------------------------
-- Taking a frame down and putting one up
-- ---------------------------------------------------------------------------

/-- The routine drops everything below the top down to the marker, and returns. -/
theorem from_unwind {top : Int} {below : List Word} {target : Nat}
    (hBelow : ∀ x ∈ below, x ≠ (l.config.frameMarker : Int))
    (hRoom : (l.terms w).Room (below.length + base.length + 3))
    (next : (l.terms w).From target
      ⟨l.picture m, top :: base, calls, printed, random⟩) :
    (l.terms w).From (l.linking.label unwindLabel)
      ⟨l.picture m, top :: (below ++ (l.config.frameMarker : Int) :: base), target :: calls,
        printed, random⟩ := by
  obtain ⟨-, -, -, -, hCode⟩ := l.placed_parts w
  have hSplit : (l.terms w).Placed (l.linking.label unwindLabel)
      ([.label unwindLabel, .op .swap, .op .dup, .push l.config.frameMarker, .op .compareEq] ++
        branchIfFalse unwindDropLabel ++ [.op .drop, .op .ret] ++
        .label unwindDropLabel :: ([.op .drop] ++ jumpTo unwindLabel)) := hCode
  obtain ⟨hDrop, hEntersDrop, -⟩ := hSplit.at_label
  induction below with
  | nil =>
    -- the word below the top is the marker
    refine from_label hCode fun hCode => ?_
    refine from_swap hCode fun hCode => ?_
    refine from_dup hCode (hRoom.mono (by simp)) fun hCode => ?_
    refine from_push hCode (hRoom.mono (by simp)) fun hCode => ?_
    refine from_branchUnlessEqual hCode hEntersDrop (hRoom.mono (by simp))
      (fun hOther => absurd rfl hOther) fun _ hCode => ?_
    refine from_drop hCode fun hCode => ?_
    exact from_ret hCode next
  | cons x below ih =>
    -- any other word is dropped, and the routine begins again
    obtain ⟨hOther, hRest⟩ := List.forall_mem_cons.mp hBelow
    refine from_label hCode fun hCode => ?_
    refine from_swap hCode fun hCode => ?_
    refine from_dup hCode (hRoom.mono (by simp; omega)) fun hCode => ?_
    refine from_push hCode (hRoom.mono (by simp; omega)) fun hCode => ?_
    refine from_branchUnlessEqual hCode hEntersDrop (hRoom.mono (by simp; omega)) (fun _ => ?_)
      fun hSame => absurd hSame hOther
    refine from_drop hDrop fun hCode => ?_
    refine from_jumpTo hCode (Placed.enters hSplit) (hRoom.mono (by simp; omega)) ?_
    exact ih hRest (hRoom.mono (by simp))

/-- Zeros put on the stack. -/
theorem from_pushZeros {count : Nat}
    (hCode : (l.terms w).Placed address (List.replicate count (.push 0) ++ rest))
    (hRoom : (l.terms w).Room (stack.length + count))
    (next : (l.terms w).Placed (address + count) rest → (l.terms w).From (address + count)
      ⟨l.picture m, List.replicate count 0 ++ stack, calls, printed, random⟩) :
    (l.terms w).From address ⟨l.picture m, stack, calls, printed, random⟩ := by
  induction count generalizing address stack with
  | zero => exact next hCode
  | succ count ih =>
    refine from_push hCode (hRoom.mono (by omega)) fun hCode => ?_
    refine ih hCode (hRoom.mono (by simp; omega)) fun hCode => ?_
    rw [show address + 1 + count = address + (count + 1) by omega] at hCode ⊢
    rw [show List.replicate count (0 : Int) ++ ((0 : Nat) : Int) :: stack =
      List.replicate (count + 1) 0 ++ stack by
        rw [List.replicate_succ', List.append_assoc]; rfl]
    exact next hCode

/-- The next frame is put up, and the next iteration begins. -/
theorem from_restart (hCode : (l.terms w).Placed address (restart l.config ++ rest))
    (hRoom : (l.terms w).Room (base.length + 1 + l.config.slotCount))
    (next : (l.terms w).From 0 ⟨l.picture m,
      List.replicate l.config.slotCount 0 ++ (l.config.frameMarker : Int) :: base, calls, printed,
        random⟩) :
    (l.terms w).From address ⟨l.picture m, base, calls, printed, random⟩ := by
  have hSplit : (l.terms w).Placed address (.push l.config.frameMarker ::
      (List.replicate l.config.slotCount (.push 0) ++ (jumpTo mainLabel ++ rest))) := by
    rw [restart, List.append_assoc, List.cons_append] at hCode
    exact hCode
  refine from_push hSplit (hRoom.mono (by omega)) fun hCode => ?_
  refine from_pushZeros hCode hRoom fun hCode => ?_
  refine from_jumpTo hCode l.enters_main (hRoom.mono (by simp; omega)) ?_
  show (l.terms w).From (l.linking.label mainLabel) _
  rw [l.label_main]
  exact next

end Rules

end FactorMachine.Seeker
