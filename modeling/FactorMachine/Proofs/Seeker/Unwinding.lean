import FactorMachine.Proofs.Assembly.Transfer
import FactorMachine.Proofs.Seeker.Requests

/-!
# FactorMachine — a frame is taken down

Both paths of a goal-seeker call one routine to take their frame down. It keeps the word on top and
drops what lies below it, a word at a time, down to the marker and the marker with it. Only the two
top words are within reach, so each pass swaps them, compares a copy of the lower one with the
marker, and either drops it and begins again or drops it and returns.

What carries the loop is that the kept word is back on top whenever a pass is over: a pass leaves
the stack as it was but for the word below the top. So the routine ends whatever the height of the
frame is, after ten steps for each word of it, and it never looks at what lies below the marker.

What is said here is about the cells of the routine as they were assembled, in an engine with room
for two words above the frame. A program may have rewritten every other cell.

## Results

* `Stands.steps_pass`  — one pass drops one word.
* `Stands.steps_drain` — so the routine drops them all and returns.
* `unwind_drains`      — what a call of the routine leaves.
-/

namespace FactorMachine

open Statement Seeker

-- ---------------------------------------------------------------------------
-- The routine
-- ---------------------------------------------------------------------------

variable {σ : Type} [RandomSource σ] {ss : List Statement} {selected : List Nat} {out : Assembled}
  {e : Engine σ} {linking : Linking} {c : SeekerConfig} {top x : Word} {rest below base : List Word}

open Engine

section Passes

variable (h : Stands ss out (unwindPart c) e) (hRealizes : Realizes linking ss out.program)
include h hRealizes

/-- A pass begins with the word below the top on top of it, and goes one way if that is the marker
and another way if it is not. -/
theorem Stands.steps_look (hStack : e.stack = top :: x :: rest)
    (hRoom : rest.length + 4 ≤ e.maxStackDepth) : ∃ trace, e.steps 7 = .ok
      (e.ran trace (if x = (c.frameMarker : Int) then e.ip + 7 else e.ip + 9)
        (x :: top :: rest)) := by
  have hLabel : linking.label unwindDropLabel = e.ip + 9 :=
    h.label_eq hRealizes (.label unwindLabel :: [.op .swap, .op .dup, .push c.frameMarker,
      .op .compareEq] ++ branchIfFalse unwindDropLabel ++ [.op .drop, .op .ret]) rfl
  have hTarget : e.ip + 9 < e.memory.size := h.lt_size hRealizes (i := 9) (show 9 < 12 by decide)
  have hPush : DecodesTo e.memory.cells (e.ip + 4) (.push (e.ip + 9)) :=
    hLabel ▸ h.decodesTo hRealizes (i := 4) rfl rfl
  let equal : Word := if x = (c.frameMarker : Int) then 1 else 0
  let swapped := e.ran [(e.ip, .swap)] (e.ip + 1) (x :: top :: rest)
  let doubled := swapped.ran [(e.ip + 1, .dup)] (e.ip + 2) (x :: x :: top :: rest)
  let marked := doubled.ran [(e.ip + 2, .push)] (e.ip + 3)
    ((c.frameMarker : Int) :: x :: x :: top :: rest)
  let compared := marked.ran [(e.ip + 3, .compareEq)] (e.ip + 4) (equal :: x :: top :: rest)
  have hTwo : rest.length + 2 < e.maxStackDepth := by omega
  have hThree : rest.length + 3 < e.maxStackDepth := by omega
  have hCompared : e.steps 7 = compared.steps 3 := calc
    e.steps 7 = swapped.steps 6 :=
      steps_swap h.free 6 (h.decodesTo hRealizes (i := 0) rfl rfl) hStack
    _ = doubled.steps 5 := steps_dup rfl 5 (h.decodesTo hRealizes (i := 1) rfl rfl) rfl hTwo
    _ = marked.steps 4 := steps_push rfl 4 (h.decodesTo hRealizes (i := 2) rfl rfl) hThree
    _ = compared.steps 3 :=
      steps_compareEq rfl 3 (h.decodesTo hRealizes (i := 3) rfl rfl) rfl hTwo
  have hBranched : compared.steps 3 = .ok (compared.ran
      [(e.ip + 4, .push), (e.ip + 5, .swap), (e.ip + 6, .jumpIfZero)]
      (if equal = 0 then e.ip + 9 else e.ip + 7) (x :: top :: rest)) :=
    steps_push_branch (e := compared) rfl hPush hThree hTarget
      (h.decodesTo hRealizes (i := 5) rfl rfl) (h.decodesTo hRealizes (i := 6) rfl rfl) rfl
  have hWay : (if equal = 0 then e.ip + 9 else e.ip + 7) =
      if x = (c.frameMarker : Int) then e.ip + 7 else e.ip + 9 := by
    by_cases hMarker : x = (c.frameMarker : Int) <;> simp [equal, hMarker]
  rw [hCompared, hBranched, hWay]
  simp only [compared, marked, doubled, swapped, ran_ran]
  exact ⟨_, rfl⟩

/-- A pass that finds another word than the marker drops it, and the routine begins again. -/
theorem Stands.steps_pass (hOther : x ≠ (c.frameMarker : Int))
    (hStack : e.stack = top :: x :: rest) (hRoom : rest.length + 4 ≤ e.maxStackDepth) :
    ∃ trace, e.steps 10 = .ok (e.ran trace e.ip (top :: rest)) := by
  obtain ⟨trace, hLook⟩ := h.steps_look hRealizes hStack hRoom
  rw [if_neg hOther] at hLook
  have hLabel : linking.label unwindLabel = e.ip := h.label_eq hRealizes [] rfl
  have hPush : DecodesTo e.memory.cells (e.ip + 10) (.push e.ip) := by
    have hCell := h.decodesTo hRealizes (i := 10) rfl rfl
    rwa [hLabel] at hCell
  have hTarget : e.ip < e.memory.size := h.lt_size hRealizes (i := 0) (show 0 < 12 by decide)
  let looked := e.ran trace (e.ip + 9) (x :: top :: rest)
  let dropped := looked.ran [(e.ip + 9, .drop)] (e.ip + 10) (top :: rest)
  have hDropped : looked.steps 3 = dropped.steps 2 :=
    steps_drop rfl 2 (h.decodesTo hRealizes (i := 9) rfl rfl) rfl
  have hFree : rest.length + 1 < e.maxStackDepth := by omega
  have hJumped : dropped.steps 2 =
      .ok (dropped.ran [(e.ip + 10, .push), (e.ip + 11, .jump)] e.ip (top :: rest)) :=
    steps_push_jump rfl hPush hFree hTarget (h.decodesTo hRealizes (i := 11) rfl rfl)
  have hAll := ((steps_of_steps hLook 3).trans hDropped).trans hJumped
  simp only [dropped, looked, ran_ran] at hAll
  exact ⟨_, hAll⟩

/-- The pass that finds the marker drops it and returns. -/
theorem Stands.steps_leave {target : Nat} {calls : List Nat}
    (hStack : e.stack = top :: (c.frameMarker : Int) :: rest)
    (hCalls : e.callStack = target :: calls) (hRoom : rest.length + 4 ≤ e.maxStackDepth) :
    ∃ trace, e.steps 9 = .ok { e.ran trace target (top :: rest) with callStack := calls } := by
  obtain ⟨trace, hLook⟩ := h.steps_look hRealizes hStack hRoom
  rw [if_pos rfl] at hLook
  let looked := e.ran trace (e.ip + 7) ((c.frameMarker : Int) :: top :: rest)
  let dropped := looked.ran [(e.ip + 7, .drop)] (e.ip + 8) (top :: rest)
  have hDropped : looked.steps 2 = dropped.steps 1 :=
    steps_drop rfl 1 (h.decodesTo hRealizes (i := 7) rfl rfl) rfl
  have hReturned : dropped.steps 1 =
      .ok { dropped.ran [(e.ip + 8, .ret)] target (top :: rest) with callStack := calls } :=
    steps_ret rfl 0 (h.decodesTo hRealizes (i := 8) rfl rfl) hCalls
  have hAll := ((steps_of_steps hLook 2).trans hDropped).trans hReturned
  simp only [dropped, looked, ran_ran] at hAll
  exact ⟨_, hAll⟩

/-- The routine drops the words below the top down to the marker, and returns. -/
theorem Stands.steps_drain {target : Nat} {calls : List Nat}
    (hBelow : ∀ x ∈ below, x ≠ (c.frameMarker : Int))
    (hStack : e.stack = top :: (below ++ (c.frameMarker : Int) :: base))
    (hCalls : e.callStack = target :: calls)
    (hRoom : below.length + base.length + 4 ≤ e.maxStackDepth) :
    ∃ trace, e.steps (10 * below.length + 9) =
      .ok { e.ran trace target (top :: base) with callStack := calls } := by
  -- one pass for each word; what it leaves is an engine at the routine with one word less
  induction below generalizing e with
  | nil => exact h.steps_leave hRealizes hStack hCalls (by simpa using hRoom)
  | cons x below ih =>
    obtain ⟨hOther, hBelow⟩ := List.forall_mem_cons.mp hBelow
    rw [List.cons_append] at hStack
    rw [List.length_cons] at hRoom
    have hRest : (below ++ (c.frameMarker : Int) :: base).length + 4 ≤ e.maxStackDepth := by
      rw [List.length_append, List.length_cons]
      omega
    obtain ⟨trace₁, hPass⟩ := h.steps_pass hRealizes hOther hStack hRest
    let passed := e.ran trace₁ e.ip (top :: (below ++ (c.frameMarker : Int) :: base))
    have hPassed : Stands ss out (unwindPart c) passed := ⟨rfl, h.size, h.place, h.cells⟩
    have hRoom' : below.length + base.length + 4 ≤ e.maxStackDepth := by omega
    obtain ⟨trace₂, hDrain⟩ := ih hPassed hBelow rfl hCalls hRoom'
    simp only [passed, ran_ran] at hDrain
    refine ⟨trace₁ ++ trace₂, ?_⟩
    rw [List.length_cons, show 10 * (below.length + 1) + 9 = 10 + (10 * below.length + 9) by omega,
      steps_of_steps hPass, hDrain]

end Passes

/-- **A call takes one frame down.** In an assembled program that contains the routine, with the
routine's cells as they were assembled, an engine carries out a call to its address. On the stack
there are a word, below it a frame of words that are not the marker, below these the marker, and
whatever else. If there is room, the engine is behind the call after ten steps and ten more for each
word of the frame. The word is on top of what lay below the marker, and nothing else has changed: no
cell was written, nothing printed, no number drawn, the call stack is as it was, and nothing but the
instructions was recorded. The address is that of the routine's label. -/
theorem unwind_drains (hAssemble : assemble ss selected = .ok out) {target : Nat}
    (hRoutine : Stands ss out (unwindPart c) { e with ip := target })
    (hCall : DecodesTo e.memory.cells e.ip (.ofOpcode .call))
    (hStack : e.stack = (target : Int) :: top :: (below ++ (c.frameMarker : Int) :: base))
    (hBelow : ∀ x ∈ below, x ≠ (c.frameMarker : Int))
    (hRoom : base.length + below.length + 4 ≤ e.maxStackDepth)
    (hCalls : e.callStack.length < e.maxStackDepth) :
    out.labels.lookup unwindLabel = some target ∧
    ∃ trace, e.steps (10 + 10 * below.length) = .ok (e.ran trace (e.ip + 1) (top :: base)) := by
  have hRealizes := realizes_of_assemble hAssemble
  have hLabel : (Linking.ofLabels out.labels selected).label unwindLabel = target :=
    hRoutine.label_eq hRealizes [] rfl
  have hMem : .pushLabel unwindLabel ∈ ss := hRoutine.mem_of_mem (by simp [unwindPart, jumpTo])
  obtain ⟨address, -, hLookup, hAddress⟩ := exists_label hAssemble hMem
  refine ⟨by rw [hLookup, ← hAddress, hLabel], ?_⟩
  have hTarget : target < e.memory.size :=
    hRoutine.lt_size hRealizes (i := 0) (show 0 < 12 by decide)
  let entered : Engine σ := { e.ran [(e.ip, .call)] target
    (top :: (below ++ (c.frameMarker : Int) :: base)) with callStack := (e.ip + 1) :: e.callStack }
  have hEntered : Stands ss out (unwindPart c) entered :=
    ⟨rfl, hRoutine.size, hRoutine.place, hRoutine.cells⟩
  have hFirst : e.steps (10 * below.length + 9 + 1) = entered.steps (10 * below.length + 9) :=
    steps_call (e := e) hRoutine.free _ hCall hStack hTarget hCalls
  have hRoom' : below.length + base.length + 4 ≤ e.maxStackDepth := by omega
  obtain ⟨trace, hDrain⟩ := hEntered.steps_drain hRealizes hBelow rfl rfl hRoom'
  refine ⟨(e.ip, .call) :: trace, ?_⟩
  rw [show 10 + 10 * below.length = 10 * below.length + 9 + 1 by omega, hFirst, hDrain]
  rfl

omit [RandomSource σ] in
/-- Every goal-seeker is an assembled program with the routine in it. -/
theorem Seeker.exists_routine {b b' : SeekerBuilder} {first streak : Nat} {seeker : GoalSeeker}
    (h : (SeekerBuilder.build first streak).run b = .ok seeker b') : ∃ selected out target,
    assemble (statements b.config b.protocol first (b.bank.selectedCount streak)) selected =
      .ok out ∧
    out.program = seeker.program ∧ out.labels = seeker.labels ∧
    ∀ e : Engine σ, e.phase.canStep = true → e.memory = .ofProgram seeker.program →
      Stands (statements b.config b.protocol first (b.bank.selectedCount streak)) out
        (unwindPart b.config) { e with ip := target } := by
  obtain ⟨assembler, selected, bank, out, cells, hRun, -, hFinish, -, rfl, -⟩ :=
    SeekerBuilder.build_parts h
  let before := mainPart b.config b.protocol first ++ successPart b.config ++
    failurePart b.config b.protocol (b.bank.selectedCount streak)
  have hSplit : statements b.config b.protocol first (b.bank.selectedCount streak) =
      before ++ unwindPart b.config ++ ([.label guardLabel, .op .halt] ++ cellPart first) := by
    rw [← List.append_assoc]
    rfl
  refine ⟨selected, out, (cellStatements before).length, ?_, rfl, rfl, fun e hFree hMemory => ?_⟩
  · rw [assemble, hRun]
    exact hFinish
  · exact stands_of_program _ _ hFree hMemory hSplit rfl

/-- A goal-seeker with a single slot calls the routine where an attempt has hit its target. Above
the marker there are two words and on top of them a third one, which is all that is left. -/
theorem unwind_drains_smallest : ∃ b seeker b' target trace, ∃ e : Engine (List Nat),
    SeekerBuilder.start { slotCount := 1 } {} = .ok b ∧
    (SeekerBuilder.build 3 0).run b = .ok seeker b' ∧
    e.memory = .ofProgram seeker.program ∧ e.ip = 11 ∧
    DecodesTo e.memory.cells 11 (.ofOpcode .call) ∧
    e.stack = [target, 7, 0, 5, seeker.frameMarker, 9] ∧
    seeker.labels.lookup unwindLabel = some target ∧
    e.steps 30 = .ok (e.ran trace 12 [7, 9]) := by
  obtain ⟨b, seeker, b', hStart, hBuild, -⟩ := exists_smallest
  obtain ⟨⟨hConfig, hProtocol⟩, -⟩ := SeekerBuilder.start_spec hStart
  have hCount := (SeekerBuilder.sound_start hStart).selectedCount_eq 0
  have hMarker : seeker.frameMarker = b.config.frameMarker := by
    obtain ⟨-, -, -, -, -, -, -, -, -, rfl, -⟩ := SeekerBuilder.build_parts hBuild
    rfl
  obtain ⟨selected, out, target, hAssemble, hProgram, hLabels, hRoutine⟩ :=
    exists_routine (σ := List Nat) hBuild
  have hRealizes := realizes_of_assemble hAssemble
  rw [hConfig, hProtocol, hCount, hProgram] at hRealizes
  let e : Engine (List Nat) := { Engine.start seeker.program
    [(target : Int), 7, 0, 5, (seeker.frameMarker : Int), 9] 7 0 [] with ip := 11 }
  have hCall : DecodesTo e.memory.cells 11 (.ofOpcode .call) :=
    hRealizes.decodesTo (i := 11) (s := .op .call) (by decide) rfl
  have hStack : e.stack =
      (target : Int) :: 7 :: ([0, 5] ++ (b.config.frameMarker : Int) :: [9]) := by
    rw [← hMarker]
    rfl
  have hBelow : ∀ x ∈ [(0 : Word), 5], x ≠ (b.config.frameMarker : Int) := by
    rw [hConfig]
    decide
  obtain ⟨hLookup, trace, hSteps⟩ := unwind_drains hAssemble (hRoutine e rfl rfl) hCall hStack
    hBelow (Nat.le_refl 7) (show 0 < 7 by decide)
  exact ⟨b, seeker, b', target, trace, e, hStart, hBuild, rfl, rfl, hCall, rfl, hLabels ▸ hLookup,
    hSteps⟩

end FactorMachine
