import FactorMachine.Proofs.Assembly.SinglePass
import FactorMachine.Proofs.Engine.Steps

/-!
# FactorMachine — transfers reach their labels

A control transfer is written as one thing and assembled as two or three cells: a push of the
label's address, and an instruction that pops it. Whether the label is known when the push is
written or filled in later makes no difference to the cells, so the engine that comes to the first
of them is taken to the label, and nothing but its address and its history tells afterwards that it
was on the way. A call leaves the address behind its own cells on the call stack, and a branch takes
the condition from under the address that it has pushed.

What is said here is about the cells as they were assembled, in an engine that has room for the
address. A program may have rewritten every other cell.

## Results

* `Stands.decodesTo`   — the cells of a transfer hold what its statements stand for.
* `transfers_arrive`   — where jumps, calls and branches take an engine, and what they leave there.
-/

namespace FactorMachine

open Operation Statement

variable {σ : Type} [RandomSource σ]

-- ---------------------------------------------------------------------------
-- The cells of a transfer
-- ---------------------------------------------------------------------------

/-- The engine is at the first cell of a piece of an assembled program, and free to run. The cells
of the piece are as they were assembled. -/
structure Stands (ss : List Statement) (out : Assembled) (piece : List Statement)
    (e : Engine σ) : Prop where
  free : e.phase.canStep = true
  size : e.memory.size = out.program.length
  place : ∃ before after, ss = before ++ piece ++ after ∧ e.ip = (cellStatements before).length
  cells : ∀ i < (cellStatements piece).length,
    e.memory.read? (e.ip + i) = out.program[e.ip + i]?

section Cells

variable {ss piece : List Statement} {selected : List Nat} {out : Assembled} {e : Engine σ}

theorem assemble_eq_ok (h : assemble ss selected = .ok out) : ∃ a,
    (Assembler.performAll ss).run .empty = .ok () a ∧ a.finish selected = .ok out := by
  unfold assemble at h
  split at h
  · rename_i a hRun
    exact ⟨a, hRun, h⟩
  · cases h

omit [RandomSource σ] in
/-- The cells of a piece hold what its statements stand for. -/
theorem Stands.decodesTo (h : Stands ss out piece e) {linking : Linking}
    (hRealizes : Realizes linking ss out.program) {i : Nat} {s : Statement} {r : Record}
    (hCell : (cellStatements piece)[i]? = some s) (hRecord : s.record? linking = some r) :
    DecodesTo e.memory.cells (e.ip + i) r := by
  obtain ⟨before, after, hSplit, hIp⟩ := h.place
  have hLt : i < (cellStatements piece).length := (List.getElem?_eq_some_iff.mp hCell).1
  have hHere : (cellStatements ss)[e.ip + i]? = some s := by
    rw [hSplit, hIp, cellStatements_append, cellStatements_append, List.append_assoc,
      List.getElem?_append_right (Nat.le_add_right _ i), Nat.add_sub_cancel_left,
      List.getElem?_append_left hLt]
    exact hCell
  obtain ⟨chunk, hChunk, hDecode⟩ := hRealizes.decodesTo hHere hRecord
  refine ⟨chunk, ?_, hDecode⟩
  have hSame : e.memory.cells[e.ip + i]? = out.program[e.ip + i]? := h.cells i hLt
  rw [hSame]
  simpa using hChunk

omit [RandomSource σ] in
/-- In an engine with the program as it was assembled, every piece is. -/
theorem stands_of_program (before after : List Statement) (hFree : e.phase.canStep = true)
    (hMemory : e.memory = .ofProgram out.program) (hSplit : ss = before ++ piece ++ after)
    (hIp : e.ip = (cellStatements before).length) : Stands ss out piece e := by
  refine { free := hFree, size := ?_, place := ⟨before, after, hSplit, hIp⟩, cells := ?_ }
  · rw [hMemory]
    exact List.size_toArray ..
  · intro i _
    rw [hMemory]
    exact List.getElem?_toArray ..

section Linked

variable {linking : Linking} (h : Stands ss out piece e)
  (hRealizes : Realizes linking ss out.program)
include h hRealizes

omit [RandomSource σ] in
/-- A label inside the piece stands behind the cells before it. -/
theorem Stands.label_eq {name : String} {back : List Statement} (front : List Statement)
    (hSplit : piece = front ++ .label name :: back) :
    linking.label name = e.ip + (cellStatements front).length := by
  obtain ⟨before, after, rfl, hIp⟩ := h.place
  subst hSplit
  rw [hRealizes.labels (before ++ front) name (back ++ after) (by simp), cellStatements_append,
    List.length_append, hIp]

omit [RandomSource σ] in
/-- The cells of the piece are cells of the engine. -/
theorem Stands.lt_size {i : Nat} (hi : i < (cellStatements piece).length) :
    e.ip + i < e.memory.size := by
  obtain ⟨before, after, rfl, hIp⟩ := h.place
  rw [h.size, hRealizes.length, hIp]
  simp only [cellStatements_append, List.length_append]
  omega

end Linked

omit [RandomSource σ] in
theorem Stands.mem_of_mem (h : Stands ss out piece e) {s : Statement} (hMem : s ∈ piece) :
    s ∈ ss := by
  obtain ⟨before, after, rfl, -⟩ := h.place
  simp [hMem]

/-- A label that a program refers to is where the program that came out says. -/
theorem exists_label (h : assemble ss selected = .ok out) {name : String}
    (hMem : .pushLabel name ∈ ss) : ∃ target, LabelAt ss name target ∧
      out.labels.lookup name = some target ∧
      (Linking.ofLabels out.labels selected).label name = target := by
  obtain ⟨a, hRun, hFinish⟩ := assemble_eq_ok h
  have hPrefix := Assembler.performAll_prefix hRun
  have hRecorded := Assembler.performAll_recorded hRun
  have hResolvable := (hRecorded.exists_finish_iff hPrefix).mp ⟨out, hFinish⟩
  obtain ⟨target, hLabel, -⟩ := hResolvable.label name hMem
  obtain ⟨-, -, -, -, hLabels, -⟩ := finish_parts hFinish
  have hLookup : out.labels.lookup name = some target := by
    rw [hLabels]
    exact (hRecorded.labels name target).mpr hLabel
  exact ⟨target, hLabel, hLookup, by simp [Linking.ofLabels, hLookup]⟩

theorem realizes_of_assemble (h : assemble ss selected = .ok out) :
    Realizes (.ofLabels out.labels selected) ss out.program := by
  obtain ⟨a, hRun, hFinish⟩ := assemble_eq_ok h
  exact finish_spec (Assembler.performAll_prefix hRun) hFinish

end Cells

-- ---------------------------------------------------------------------------
-- Transfers
-- ---------------------------------------------------------------------------

variable {ss : List Statement} {selected : List Nat} {out : Assembled} {e : Engine σ}
  {name : String} {linking : Linking} {target : Nat}

open Engine

section Arrival

variable (hRealizes : Realizes linking ss out.program) (hLabel : linking.label name = target)
  (hRoom : e.stack.length < e.maxStackDepth) (hTarget : target < out.program.length)
include hRealizes hLabel hRoom hTarget

theorem Stands.steps_jumpTo (h : Stands ss out (jumpTo name) e) :
    e.steps 2 = .ok { e.passed [.executed e.ip .push, .executed (e.ip + 1) .jump] with
      ip := target } := by
  subst hLabel
  have hPush : DecodesTo e.memory.cells e.ip (.push (linking.label name)) :=
    h.decodesTo hRealizes (i := 0) rfl rfl
  have hJump : DecodesTo e.memory.cells (e.ip + 1) (.ofOpcode .jump) :=
    h.decodesTo hRealizes (i := 1) rfl rfl
  exact steps_push_jump h.free hPush hRoom (h.size ▸ hTarget) hJump

theorem Stands.steps_callTo (h : Stands ss out (callTo name) e)
    (hCalls : e.callStack.length < e.maxStackDepth) :
    e.steps 2 = .ok { e.passed [.executed e.ip .push, .executed (e.ip + 1) .call] with
      ip := target, callStack := (e.ip + 2) :: e.callStack } := by
  subst hLabel
  have hPush : DecodesTo e.memory.cells e.ip (.push (linking.label name)) :=
    h.decodesTo hRealizes (i := 0) rfl rfl
  have hCall : DecodesTo e.memory.cells (e.ip + 1) (.ofOpcode .call) :=
    h.decodesTo hRealizes (i := 1) rfl rfl
  exact steps_push_call h.free hPush hRoom (h.size ▸ hTarget) hCall hCalls

theorem Stands.steps_branchIfFalse (h : Stands ss out (branchIfFalse name) e) {c : Word}
    {rest : List Word} (hStack : e.stack = c :: rest) :
    e.steps 3 = .ok { e.passed [.executed e.ip .push, .executed (e.ip + 1) .swap,
        .executed (e.ip + 2) .jumpIfZero] with
      ip := if c = 0 then target else e.ip + 3, stack := rest } := by
  subst hLabel
  have hPush : DecodesTo e.memory.cells e.ip (.push (linking.label name)) :=
    h.decodesTo hRealizes (i := 0) rfl rfl
  have hSwap : DecodesTo e.memory.cells (e.ip + 1) (.ofOpcode .swap) :=
    h.decodesTo hRealizes (i := 1) rfl rfl
  have hJump : DecodesTo e.memory.cells (e.ip + 2) (.ofOpcode .jumpIfZero) :=
    h.decodesTo hRealizes (i := 2) rfl rfl
  exact steps_push_branch h.free hPush hRoom (h.size ▸ hTarget) hSwap hJump hStack

end Arrival

/-- **Transfers reach their labels.** In an engine that stands at a transfer of an assembled
program, with the transfer's cells as they were assembled and room for one more word, the label is
defined. If it stands at a cell, a jump gets there in two steps and changes nothing else; a call
gets there in two steps and leaves the address behind itself on the call stack, where it must find
room; and a branch pops the condition and gets there in three steps if it is zero, and else behind
itself. On the way no word is printed, no cell written and no number drawn, and nothing but the
instructions is recorded. -/
theorem transfers_arrive (hAssemble : assemble ss selected = .ok out)
    (hRoom : e.stack.length < e.maxStackDepth) :
    (Stands ss out (jumpTo name) e → ∃ target, LabelAt ss name target ∧
      out.labels.lookup name = some target ∧ (target < out.program.length →
        e.steps 2 = .ok { e.passed [.executed e.ip .push, .executed (e.ip + 1) .jump] with
          ip := target })) ∧
    (Stands ss out (callTo name) e → ∃ target, LabelAt ss name target ∧
      out.labels.lookup name = some target ∧ (target < out.program.length →
        e.callStack.length < e.maxStackDepth →
        e.steps 2 = .ok { e.passed [.executed e.ip .push, .executed (e.ip + 1) .call] with
          ip := target, callStack := (e.ip + 2) :: e.callStack })) ∧
    (Stands ss out (branchIfFalse name) e → ∃ target, LabelAt ss name target ∧
      out.labels.lookup name = some target ∧ (target < out.program.length →
        ∀ c rest, e.stack = c :: rest →
        e.steps 3 = .ok { e.passed [.executed e.ip .push, .executed (e.ip + 1) .swap,
            .executed (e.ip + 2) .jumpIfZero] with
          ip := if c = 0 then target else e.ip + 3, stack := rest })) := by
  have hRealizes := realizes_of_assemble hAssemble
  refine ⟨fun h => ?_, fun h => ?_, fun h => ?_⟩
  · obtain ⟨target, hAt, hLookup, hLabel⟩ := exists_label hAssemble (h.mem_of_mem (.head _))
    exact ⟨target, hAt, hLookup, fun hTarget =>
      h.steps_jumpTo hRealizes hLabel hRoom hTarget⟩
  · obtain ⟨target, hAt, hLookup, hLabel⟩ := exists_label hAssemble (h.mem_of_mem (.head _))
    exact ⟨target, hAt, hLookup, fun hTarget hCalls =>
      h.steps_callTo hRealizes hLabel hRoom hTarget hCalls⟩
  · obtain ⟨target, hAt, hLookup, hLabel⟩ := exists_label hAssemble (h.mem_of_mem (.head _))
    exact ⟨target, hAt, hLookup, fun hTarget c rest hStack =>
      h.steps_branchIfFalse hRealizes hLabel hRoom hTarget hStack⟩

/-- A call of a routine that stands behind it. -/
theorem transfers_arrive_call : ∃ ss out, ∃ e e' : Engine (List Nat),
    ss = callTo "routine" ++ [.op .halt, .label "routine", .op .ret] ∧
    assemble ss [] = .ok out ∧ Stands ss out (callTo "routine") e ∧
    e.steps 2 = .ok e' ∧ e'.ip = 3 ∧ e'.callStack = [2] ∧ e'.stack = e.stack := by
  let ss : List Statement := callTo "routine" ++ [.op .halt, .label "routine", .op .ret]
  obtain ⟨out, hAssemble, hLength, hLabel⟩ : ∃ out, assemble ss [] = .ok out ∧
      out.program.length = 4 ∧ out.labels.lookup "routine" = some 3 := ⟨_, rfl, rfl, rfl⟩
  let e : Engine (List Nat) := start out.program [] 1 0 []
  have hStands : Stands ss out (callTo "routine") e :=
    { free := rfl
      size := List.size_toArray ..
      place := ⟨[], _, rfl, rfl⟩
      cells := fun i _ => List.getElem?_toArray .. }
  have hRoom : e.stack.length < e.maxStackDepth := Nat.zero_lt_one
  obtain ⟨target, -, hLookup, hSteps⟩ := (transfers_arrive hAssemble hRoom).2.1 hStands
  obtain rfl : 3 = target := Option.some.inj (hLabel.symm.trans hLookup)
  have hTwo := hSteps (by omega) Nat.zero_lt_one
  exact ⟨ss, out, e, _, rfl, hAssemble, hStands, hTwo, rfl, rfl, rfl⟩

end FactorMachine
