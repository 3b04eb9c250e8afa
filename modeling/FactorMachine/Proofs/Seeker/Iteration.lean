import FactorMachine.Proofs.Chunk.Least
import FactorMachine.Proofs.Engine.Steps
import FactorMachine.Proofs.Seeker.Waits

/-!
# FactorMachine — an iteration, step by step

From address zero a goal-seeker takes as many steps to its request for feedback as there are
instructions on the way, whatever its slots hold. Each slot leaves the frame on the stack a frame:
a push puts a zero on top, and an addition joins the two words on top, of which one is a zero as
long as fewer additions have run than the frame began with zeros. So what is printed depends only
on a counter, which says how many zeros there are above the attempt.

## Results

* `steps_slot`, `steps_slots` — what one slot and what all slots do to the frame.
* `GoalSeeker.Begins`  — the beginning of an iteration, as it shows in an engine.
* `iteration_shows`    — the number of steps, the printed word, and the stack at the request.
-/

namespace FactorMachine

open Seeker

variable {σ : Type} [RandomSource σ]

-- ---------------------------------------------------------------------------
-- The slots
-- ---------------------------------------------------------------------------

/-- The counter of zeros above the attempt, after a slot. -/
def Seeker.SlotKind.count (d : Nat) : SlotKind → Nat
  | .push => d + 1
  | .add => d - 1
  | .nop => d

/-- The counter after the slots from address one on, beginning at zero. -/
def Seeker.slotCounter (slots : Nat → SlotKind) (count : Nat) : Nat :=
  (List.range' 1 count).foldl (fun d a => (slots a).count d) 0

theorem Seeker.Shape.above_after (s : Shape) (kind : SlotKind) :
    (s.after kind).above = kind.count s.above := by
  cases kind with
  | nop => rfl
  | push => rfl
  | add =>
    show (if s.above = 0 then (⟨0, s.below - 1⟩ : Shape) else ⟨s.above - 1, s.below⟩).above =
      s.above - 1
    split
    · rename_i hNone
      rw [hNone]
    · rfl

/-- The zeros above the attempt are what the counter says. -/
theorem Seeker.above_shapeFrom (slots : Nat → SlotKind) (s : Shape) (first count : Nat) :
    (shapeFrom slots s first count).above =
      (List.range' first count).foldl (fun d a => (slots a).count d) s.above := by
  induction count generalizing s first with
  | zero => rfl
  | succ count ih => rw [shapeFrom_succ, ih, s.above_after, List.range'_succ, List.foldl_cons]

omit [RandomSource σ] in
/-- The engine after steps that have only moved it on and worked on its stack. -/
def Engine.movedTo (e : Engine σ) (ip : Nat) (stack : List Word) (history : History) : Engine σ :=
  { e with phase := .running, memory := e.memory.takeDirty.2, ip, stack, history }

section Slots

variable {e : Engine σ} {attempt : Nat} (marker : Nat) (base : List Word)

/-- One slot. An addition finds a zero, above the attempt or below it. -/
theorem steps_slot (s : Shape) {a : Nat} {kind : SlotKind}
    (hCell : DecodesTo e.program a kind.record) (hAttempt : attempt < primeCount)
    (hBelow : 0 < s.below)
    (hRoom : s.zeros + 1 + base.length + (if kind = .push then 1 else 0) < e.maxStackDepth)
    (history : History) : ∃ history', ∀ n,
      (e.movedTo a (frame marker attempt s base) history).steps (n + 1) =
        (e.movedTo (a + 1) (frame marker attempt (s.after kind) base) history').steps n := by
  have hLow : (0 : Int) ≤ attempt := Int.natCast_nonneg attempt
  have hHigh : (attempt : Int) < primeCount := Int.ofNat_lt.mpr hAttempt
  have hLimit : (primeCount : Int) ≤ 2 ^ 127 := by decide
  have hLength : (frame marker attempt s base).length = s.zeros + 2 + base.length := by
    rw [frame_eq_cons, List.length_cons, length_frameBelow]
    omega
  cases kind with
  | nop => exact ⟨_, fun n => Engine.steps_nop rfl n hCell⟩
  | push =>
    rw [if_pos rfl] at hRoom
    have hFree : (frame marker attempt s base).length < e.maxStackDepth := by omega
    exact ⟨_, fun n => Engine.steps_push rfl n hCell hFree⟩
  | add =>
    rw [if_neg (by decide)] at hRoom
    obtain ⟨x, y, rest, hBefore, hAfter, hSumLow, hSumHigh⟩ := frame_add marker attempt base hBelow
    rw [hBefore, List.length_cons, List.length_cons] at hLength
    rw [hBefore, hAfter]
    have hFree : rest.length < e.maxStackDepth := by omega
    have hLeast : -(2 ^ 127) ≤ x + y := by omega
    have hMost : x + y < 2 ^ 127 := by omega
    exact ⟨_, fun n => Engine.steps_add rfl n hCell rfl hLeast hMost hFree⟩

/-- Slots in a row, with a zero below the attempt for each. -/
theorem steps_slots {slots : Nat → SlotKind} (s : Shape) {first count : Nat}
    (hCells : ∀ a ∈ List.range' first count, DecodesTo e.program a (slots a).record)
    (hAttempt : attempt < primeCount) (hBelow : count ≤ s.below)
    (hRoom : s.zeros + 1 + base.length + pushesFrom slots first count < e.maxStackDepth)
    (history : History) : ∃ history', ∀ n,
      (e.movedTo first (frame marker attempt s base) history).steps (count + n) =
        (e.movedTo (first + count) (frame marker attempt (shapeFrom slots s first count) base)
          history').steps n := by
  induction count generalizing s first history with
  | zero => exact ⟨history, fun n => by rw [Nat.zero_add]; rfl⟩
  | succ count ih =>
    rw [pushesFrom_succ] at hRoom
    rw [List.range'_succ, List.forall_mem_cons] at hCells
    have hZeros := zeros_after_le s (slots first)
    have hZero := below_after s (slots first)
    -- each slot uses up at most one zero below the attempt, so there is one for each that is left
    obtain ⟨history₁, hFirst⟩ := steps_slot marker base s hCells.1 hAttempt (by omega) (by omega)
      history
    obtain ⟨history₂, hRest⟩ := ih (s.after (slots first)) hCells.2 (by omega) (by omega) history₁
    refine ⟨history₂, fun n => ?_⟩
    rw [show count + 1 + n = count + n + 1 by omega, hFirst, hRest, shapeFrom_succ,
      show first + 1 + count = first + (count + 1) by omega]

/-- The word on top is printed, and the engine waits. -/
theorem steps_show {a : Nat} (w : Word) (rest : List Word)
    (hDup : DecodesTo e.program a (.ofOpcode .dup))
    (hPrint : DecodesTo e.program (a + 1) (.ofOpcode .print))
    (hInput : DecodesTo e.program (a + 2) (.ofOpcode .input))
    (hRoom : rest.length + 1 < e.maxStackDepth) (history : History) : ∃ history',
      (e.movedTo a (w :: rest) history).steps 3 = .ok { e with
        memory := e.memory.takeDirty.2
        ip := a + 3
        phase := .awaitingInput
        stack := w :: rest
        printed := w :: e.printed
        history := history' } := by
  have hFirst := Engine.steps_dup (e := e.movedTo a (w :: rest) history) rfl 2 hDup rfl hRoom
  exact ⟨_, hFirst.trans ((Engine.steps_print rfl 1 hPrint rfl).trans
    (Engine.steps_input rfl 0 hInput))⟩

end Slots

-- ---------------------------------------------------------------------------
-- A whole iteration
-- ---------------------------------------------------------------------------

/-- The engine is at the beginning of an iteration: at address zero, in the frame that the program
starts from, with an attempt and slots of any kind. Beside the data cells the rest of its memory is
the program. -/
structure GoalSeeker.Begins (s : GoalSeeker) (attempt : Nat) (slots : Nat → SlotKind)
    (e : Engine σ) : Prop where
  free : e.phase.canStep = true
  ip : e.ip = 0
  stack : e.stack = s.initialStack
  attempt : DecodesTo e.program 0 (.push attempt)
  slot : ∀ a ∈ s.slotAddresses, DecodesTo e.program a (slots a).record
  text : ∀ a, s.slotCount < a → a ∉ s.cells.addresses → e.program[a]? = s.program[a]?

namespace Seeker

variable {l : Layout} {seeker : GoalSeeker} {target attempt : Nat} {slots : Nat → SlotKind}
  {e : Engine σ}

omit [RandomSource σ] in
/-- What the text says at an address is in the memory. -/
theorem Layout.Describes.decodesTo_text (h : l.Describes seeker target)
    (hBegins : seeker.Begins attempt slots e) {a : Nat} {r : Record} (hText : l.text a = some r) :
    DecodesTo e.program a r := by
  obtain ⟨hAfter, hBefore⟩ := Layout.text_lt hText
  have hOutside : a ∉ seeker.cells.addresses := by
    rw [mem_addresses h]
    rintro ⟨d, rfl⟩
    rw [Layout.label_cell_eq] at hBefore
    omega
  obtain ⟨chunk, hChunk, hDecode⟩ :=
    decodesTo_of_holds h.valid h.program (Layout.picture_of_text _ hText)
  refine ⟨chunk, ?_, hDecode⟩
  rw [hBegins.text a (h.slotCount ▸ hAfter) hOutside, ← List.getElem?_toArray]
  exact hChunk

theorem attempt_lt_of_decodesTo {cells : Array Chunk} (h : DecodesTo cells 0 (.push attempt)) :
    attempt < primeCount := by
  obtain ⟨chunk, -, hDecode⟩ := h
  obtain ⟨-, ⟨k, hk, hLt⟩, -⟩ := chunk_dvd_of_decode hDecode
  cases hk
  exact hLt

/-- The words of a frame below its top are zeros and attempts on top of the marker. -/
theorem frameBelow_eq (marker attempt : Nat) (s : Shape) : ∃ between : List Word,
    frameBelow marker attempt s [] = between ++ [(marker : Int)] ∧
      ∀ x ∈ between, x = 0 ∨ x = (attempt : Int) := by
  unfold frameBelow
  split
  · exact ⟨List.replicate s.below 0, rfl, fun x hx => .inl (List.mem_replicate.mp hx).2⟩
  · refine ⟨List.replicate (s.above - 1) 0 ++ (attempt : Int) :: List.replicate s.below 0,
      by rw [List.append_assoc, List.cons_append], fun x hx => ?_⟩
    rcases List.mem_append.mp hx with hZero | hRest
    · exact .inl (List.mem_replicate.mp hZero).2
    · rcases List.mem_cons.mp hRest with rfl | hZero
      · exact .inr rfl
      · exact .inl (List.mem_replicate.mp hZero).2

/-- From the beginning of an iteration to its request for feedback. -/
theorem Layout.Describes.steps_to_input (h : l.Describes seeker target)
    (hBegins : seeker.Begins attempt slots e)
    (hRoom : seeker.slotCount + pushesFrom slots 1 seeker.slotCount + 3 ≤ e.maxStackDepth) :
    ∃ history, e.steps (seeker.slotCount + 4) =
      .ok { e with
        memory := e.memory.takeDirty.2
        ip := seeker.slotCount + 4
        phase := .awaitingInput
        stack := frame seeker.frameMarker attempt
          (shapeFrom slots ⟨0, seeker.slotCount⟩ 1 seeker.slotCount) []
        printed := ((shapeFrom slots ⟨0, seeker.slotCount⟩ 1 seeker.slotCount).shown attempt : Int)
          :: e.printed
        history } := by
  have hAttempt := attempt_lt_of_decodesTo hBegins.attempt
  obtain ⟨⟨hDup, hPrint, hInput, -⟩, -⟩ := l.placed_parts (σ := σ) (.idle 0)
  have hFirst : 1 + seeker.slotCount = l.config.slotCount + 1 := by rw [h.slotCount, Nat.add_comm]
  have hZeros := zeros_shapeFrom_le slots ⟨0, seeker.slotCount⟩ 1 seeker.slotCount
  have hStart : Shape.zeros ⟨0, seeker.slotCount⟩ = seeker.slotCount := Nat.zero_add _
  have hHeight := length_frameBelow seeker.frameMarker attempt
    (shapeFrom slots ⟨0, seeker.slotCount⟩ 1 seeker.slotCount) []
  rw [hStart] at hZeros
  rw [List.length_nil] at hHeight
  -- the attempt goes on top of the zeros
  have hLength : e.stack.length = seeker.slotCount + 1 := by
    rw [hBegins.stack, GoalSeeker.initialStack, List.length_append, List.length_replicate]
    rfl
  have hPush := Engine.steps_push hBegins.free (seeker.slotCount + 3) (a := attempt)
    (by rw [hBegins.ip]; exact hBegins.attempt) (by omega)
  rw [hBegins.ip, hBegins.stack] at hPush
  obtain ⟨history₁, hSlots⟩ := steps_slots seeker.frameMarker [] ⟨0, seeker.slotCount⟩ hBegins.slot
    hAttempt (le_refl _) (by rw [List.length_nil]; omega) (e.history.recordAll [.executed 0 .push])
  rw [hFirst] at hSlots
  -- its top is shown, and the engine waits
  obtain ⟨history₂, hShow⟩ := steps_show
    ((shapeFrom slots ⟨0, seeker.slotCount⟩ 1 seeker.slotCount).shown attempt : Int)
    (frameBelow seeker.frameMarker attempt
      (shapeFrom slots ⟨0, seeker.slotCount⟩ 1 seeker.slotCount) [])
    (h.decodesTo_text hBegins hDup) (h.decodesTo_text hBegins hPrint)
    (h.decodesTo_text hBegins hInput) (by omega) history₁
  rw [← frame_eq_cons, ← h.slotCount] at hShow
  exact ⟨history₂, hPush.trans ((hSlots 3).trans (h.slotCount ▸ hShow))⟩

omit [RandomSource σ] in
/-- An engine with valid contents in its memory begins with these. -/
theorem Layout.Describes.begins (h : l.Describes seeker target) {m : Contents} (hValid : l.Valid m)
    (hHolds : Holds e.program (l.picture m)) (hFree : e.phase.canStep = true) (hIp : e.ip = 0)
    (hStack : e.stack = seeker.initialStack) : seeker.Begins m.attempt m.slots e where
  free := hFree
  ip := hIp
  stack := hStack
  attempt := decodesTo_of_holds hValid hHolds (l.picture_zero m)
  slot a ha := by
    obtain ⟨hFirst, hLast⟩ := List.mem_range'_1.mp ha
    rw [h.slotCount] at hLast
    exact decodesTo_of_holds hValid hHolds (l.picture_slot m hFirst (by omega))
  text a hAfter hOutside := by
    rw [h.slotCount] at hAfter
    rw [mem_addresses h, not_exists] at hOutside
    rw [← List.getElem?_toArray, hHolds a, h.program a, picture_eq_of_beyond _ _ hAfter hOutside]

omit [RandomSource σ] in
/-- A goal-seeker whose only slot has come to hold a push, at the beginning of an iteration. -/
theorem exists_pushing : ∃ b seeker b', ∃ (l : Layout) (e : Engine (List Nat)),
    SeekerBuilder.start { slotCount := 1 } {} = .ok b ∧
    (SeekerBuilder.build 3 0).run b = .ok seeker b' ∧ l.Describes seeker 3 ∧
    l.config = { slotCount := 1 } ∧ l.protocol = {} ∧ l.selected = [1] ∧
    l.Valid ((Contents.start 3).rewrite 1 .push) ∧ e.phase.canStep = true ∧
    (l.terms (.idle 4096)).Shows ⟨l.picture ((Contents.start 3).rewrite 1 .push), List.replicate
      l.config.slotCount 0 ++ [(l.config.frameMarker : Int)], [], [], []⟩ 0 e := by
  obtain ⟨b, seeker, b', l, hStart, hBuild, hDescribes, hConfig, hProtocol, hSelected⟩ :=
    exists_smallest_layout
  have hCount : 1 ≤ l.config.slotCount := by rw [hConfig]
  have hValid : l.Valid ((Contents.start 3).rewrite 1 .push) :=
    hDescribes.valid.rewrite .push (hSelected ▸ List.mem_singleton.mpr rfl)
  -- the program with the one slot rewritten
  let program := seeker.program.toArray.setIfInBounds 1 (SlotKind.push.record).chunk
  let e : Engine (List Nat) :=
    { Engine.start [] seeker.initialStack 4096 4096 [] with memory := ⟨program, false⟩ }
  have hHolds : Holds e.program (l.picture ((Contents.start 3).rewrite 1 .push)) := by
    rw [← l.update_slot _ _ (le_refl 1) hCount]
    refine hDescribes.program.write _ ?_
    rw [l.picture_slot _ (le_refl 1) hCount]
    rfl
  have hStack : e.stack =
      List.replicate l.config.slotCount 0 ++ [(l.config.frameMarker : Int)] := by
    rw [← hDescribes.slotCount, ← hDescribes.frameMarker]
    rfl
  exact ⟨b, seeker, b', l, e, hStart, hBuild, hDescribes, hConfig, hProtocol, hSelected, hValid,
    rfl, rfl, hStack, rfl, rfl, rfl, rfl, rfl, hHolds, _, hValid, rfl⟩

end Seeker

/-- The word that an iteration shows: the attempt, unless there is a zero above it. -/
def Seeker.shownWord (attempt : Nat) (slots : Nat → SlotKind) (slotCount : Nat) : Nat :=
  if slotCounter slots slotCount = 0 then attempt else 0

/-- **An iteration shows the attempt or a zero.** From the beginning of an iteration, with any
attempt and slots of any kind, and with room for the frame, the pushes among the slots and two more
words, a goal-seeker that was built is at its request for feedback after four steps more than it
has slots. One word was printed, which is left on top of the stack; between it and the marker at
the bottom are only zeros and the attempt. The word is the attempt if the counter that goes up
with a push and down with an addition, but not below zero, ends at zero, and else it is a zero. -/
theorem iteration_shows {config : SeekerConfig} {protocol : ProtocolConfig}
    {b b' : SeekerBuilder} {bank : SlotBank} {target streak : Nat} {seeker : GoalSeeker}
    (hStart : SeekerBuilder.start config protocol = .ok b)
    (hBuild : (SeekerBuilder.build target streak).run { b with bank } = .ok seeker b')
    {attempt : Nat} {slots : Nat → SlotKind} {e : Engine σ}
    (hBegins : seeker.Begins attempt slots e)
    (hRoom : seeker.slotCount + pushesFrom slots 1 seeker.slotCount + 3 ≤ e.maxStackDepth) :
    ∃ between history, ∃ e' : Engine σ, e.steps (seeker.slotCount + 4) = .ok e' ∧
      seeker.AtMainInput e' ∧
      e' = { e with
        memory := e.memory.takeDirty.2
        ip := seeker.slotCount + 4
        phase := .awaitingInput
        stack := (shownWord attempt slots seeker.slotCount : Int) ::
          (between ++ [(seeker.frameMarker : Int)])
        printed := (shownWord attempt slots seeker.slotCount : Int) :: e.printed
        history } ∧
      ∀ x ∈ between, x = 0 ∨ x = (attempt : Int) := by
  obtain ⟨l, -, -, hDescribes⟩ := exists_layout hStart hBuild
  obtain ⟨history, hSteps⟩ := hDescribes.steps_to_input hBegins hRoom
  have hShown : (shapeFrom slots ⟨0, seeker.slotCount⟩ 1 seeker.slotCount).shown attempt =
      shownWord attempt slots seeker.slotCount := by
    rw [Shape.shown, above_shapeFrom]
    rfl
  obtain ⟨between, hBelow, hBetween⟩ := frameBelow_eq seeker.frameMarker attempt
    (shapeFrom slots ⟨0, seeker.slotCount⟩ 1 seeker.slotCount)
  rw [frame_eq_cons, hBelow, hShown] at hSteps
  refine ⟨between, history, _, hSteps, ?_, rfl, hBetween⟩
  have hInput := hDescribes.decodesTo_text hBegins l.text_mainInput
  refine ⟨_, hDescribes.lookup_success, rfl, l.config.slotCount + 3, Nat.zero_le _, by omega, ?_,
    hInput⟩
  rw [← hDescribes.slotCount]

/-- A single slot that pushes a zero hides the attempt. -/
theorem iteration_shows_zero : ∃ b seeker b', ∃ e e' : Engine (List Nat),
    SeekerBuilder.start { slotCount := 1 } {} = .ok b ∧
    (SeekerBuilder.build 3 0).run b = .ok seeker b' ∧
    seeker.Begins 3 (Function.update (fun _ => .nop) 1 .push) e ∧ e.steps 5 = .ok e' ∧
    seeker.AtMainInput e' ∧ e'.printed = [0] := by
  obtain ⟨b, seeker, b', l, e, hStart, hBuild, hDescribes, hConfig, -, -, hValid, hFree, hShows⟩ :=
    exists_pushing
  have hSeeker : seeker.slotCount = 1 := by rw [hDescribes.slotCount, hConfig]
  have hStack : e.stack = seeker.initialStack := by
    rw [hShows.stack, GoalSeeker.initialStack, hDescribes.slotCount, hDescribes.frameMarker]
  have hBegins := hDescribes.begins hValid hShows.cells hFree hShows.ip hStack
  have hRoom : seeker.slotCount + pushesFrom ((Contents.start 3).rewrite 1 .push).slots 1
      seeker.slotCount + 3 ≤ e.maxStackDepth := by
    rw [hSeeker, hShows.depth]
    show 1 + pushesFrom ((Contents.start 3).rewrite 1 .push).slots 1 1 + 3 ≤ 4096
    decide
  obtain ⟨between, history, e', hSteps, hAt, hEngine, -⟩ :=
    iteration_shows hStart (b := b) hBuild hBegins hRoom
  rw [hSeeker, hShows.printed] at hEngine
  rw [hSeeker] at hSteps
  exact ⟨b, seeker, b', e, e', hStart, hBuild, hBegins, hSteps, hAt, hEngine ▸ rfl⟩

end FactorMachine
