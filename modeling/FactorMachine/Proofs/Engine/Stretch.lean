import FactorMachine.Engine.Run
import FactorMachine.Proofs.Assembly.Placement
import FactorMachine.Proofs.Engine.Instruction

/-!
# FactorMachine — stretches between two waits

A program that asks for input runs in stretches: from the word it is given to the next wait.
This module follows such a stretch instruction by instruction, for a memory that the program
rewrites while it runs.

A `Picture` says which record each address holds, and a `View` what an engine shows apart from
its history. The `Terms` of a stretch fix what does not change on the way: the depth of the
stacks, the text that is never written, the pictures that may occur, whether and why a fault may
end the stretch, and the waits and other states it is meant to reach. `Terms.Leads` then says that
an engine gets there whatever is drawn, with an allowed memory all the way, and `Terms.From` says
it of every engine that shows a view at an address.

A program is followed backwards, one rule for each statement: to show where a statement leads
from, it is enough to show where the next one leads from.

## Results

* `Terms.from_push`, `Terms.from_add`, … — one rule for each statement.
-/

namespace FactorMachine

open Operation

-- ---------------------------------------------------------------------------
-- What a memory holds
-- ---------------------------------------------------------------------------

/-- Which record each address holds. -/
abbrev Picture := Nat → Option Record

/-- The cells are the chunks of the pictured records. -/
def Holds (cells : Array Chunk) (picture : Picture) : Prop :=
  ∀ address, cells[address]? = (picture address).map Record.chunk

theorem Holds.read {cells : Array Chunk} {picture : Picture} {address : Nat} {r : Record}
    (h : Holds cells picture) (hRecord : picture address = some r) :
    cells[address]? = some r.chunk := by
  rw [h, hRecord]
  rfl

theorem Holds.lt_size {cells : Array Chunk} {picture : Picture} {address : Nat}
    (h : Holds cells picture) (hSome : (picture address).isSome) : address < cells.size := by
  obtain ⟨r, hRecord⟩ := Option.isSome_iff_exists.mp hSome
  exact (Array.getElem?_eq_some_iff.mp (h.read hRecord)).1

/-- Writing a record's chunk to a cell changes the picture there and nowhere else. -/
theorem Holds.write {cells : Array Chunk} {picture : Picture} {address : Nat} (r : Record)
    (h : Holds cells picture) (hSome : (picture address).isSome) :
    Holds (cells.setIfInBounds address r.chunk) (Function.update picture address (some r)) := by
  intro a
  rw [Array.getElem?_setIfInBounds]
  by_cases hSame : address = a
  · -- the cell that was written
    subst hSame
    rw [if_pos rfl, if_pos (h.lt_size hSome), Function.update_self]
    rfl
  · rw [if_neg hSame, Function.update_of_ne (Ne.symm hSame), h]

/-- What an engine shows apart from its address and its history. -/
structure View (σ : Type) where
  memory : Picture
  /-- The operand stack, top first. -/
  stack : List Word
  calls : List Nat
  /-- The printed words, latest first. -/
  printed : List Word
  random : σ

-- ---------------------------------------------------------------------------
-- The terms of a stretch
-- ---------------------------------------------------------------------------

/-- How a stretch is watched. -/
structure Watch (σ : Type) where
  /-- How high the operand stack may rise without a fault being allowed. -/
  depth : Nat
  /-- The limit of either stack. -/
  limit : Nat
  depth_le : depth ≤ limit
  /-- Whether the stretch may end with a fault. -/
  mayFault : Prop
  /-- The waits for input that end the stretch. -/
  waits : Engine σ → Prop
  /-- What is known of an engine that a fault has stopped. -/
  faults : Engine σ → Prop
  /-- A full stack is a reason to fault. -/
  faults_of_full : ∀ e : Engine σ, limit ≤ e.stack.length → faults e
  /-- The engines, free to run, that end the stretch as well. -/
  ends : Engine σ → Prop

/-- Nothing is asked of a stretch but the depth of its stacks. -/
def Watch.idle {σ : Type} (depth : Nat) : Watch σ where
  depth
  limit := depth
  depth_le := Nat.le_refl _
  mayFault := True
  waits _ := True
  faults _ := True
  faults_of_full _ _ := trivial
  ends _ := False

/-- Any fault may end the stretch, and not only one for which there is a reason. -/
def Watch.MayFail {σ : Type} (w : Watch σ) : Prop := w.mayFault ∧ ∀ e, w.faults e

/-- What does not change during a stretch, and where it is meant to end. -/
structure Terms (σ : Type) extends Watch σ where
  linking : Linking
  /-- The records that are never written. -/
  text : Picture
  /-- The pictures that may occur. -/
  allows : Picture → Prop
  text_of_allows : ∀ {picture}, allows picture → ∀ {address r}, text address = some r →
    picture address = some r
  wellFormed_of_allows : ∀ {picture}, allows picture → ∀ {address r},
    picture address = some r → r.WellFormed

/-- The engine after its next instruction. -/
def Engine.next {σ : Type} [RandomSource σ] (e : Engine σ) : Engine σ :=
  ({ e with phase := .running }.advance).2

namespace Terms

variable {σ : Type} (t : Terms σ)

/-- A stack of this height is low enough, or it does not matter. -/
def Fits (height : Nat) : Prop := t.mayFault ∨ height ≤ t.depth

/-- There is room for one more word on a stack of this height, or it does not matter. -/
def Room (height : Nat) : Prop := t.Fits (height + 1)

/-- An engine has the limit of the stretch, and its stack is low enough. -/
structure Level (e : Engine σ) : Prop where
  depth : e.maxStackDepth = t.limit
  height : t.Fits e.stack.length

/-- An engine keeps to the depth, and its memory is an allowed one. -/
structure Keeps (e : Engine σ) : Prop extends t.Level e where
  memory : ∃ picture, t.allows picture ∧ Holds e.memory.cells picture

/-- The engine shows a view, with an allowed memory. -/
structure Shows (v : View σ) (address : Nat) (e : Engine σ) : Prop where
  ip : e.ip = address
  stack : e.stack = v.stack
  calls : e.callStack = v.calls
  printed : e.printed = v.printed
  random : e.random = v.random
  depth : e.maxStackDepth = t.limit
  fault : e.fault = none
  cells : Holds e.memory.cells v.memory
  allowed : t.allows v.memory

/-- The statements are the text from an address on. A label names the address that it
stands at. -/
def Placed : Nat → List Statement → Prop
  | _, [] => True
  | address, .label name :: rest =>
    (t.linking.label name = address ∧ (t.text address).isSome) ∧ Placed address rest
  | address, s :: rest => t.text address = s.record? t.linking ∧ Placed (address + 1) rest

variable {t}

theorem Fits.mono {m n : Nat} (h : t.Fits n) (hLe : m ≤ n) : t.Fits m :=
  h.imp_right (Nat.le_trans hLe)

theorem Room.mono {m n : Nat} (h : t.Room n) (hLe : m ≤ n) : t.Room m :=
  Fits.mono h (Nat.succ_le_succ hLe)

/-- Where there is room, only a fault that is allowed can come of a full stack. -/
theorem Room.mayFault {n : Nat} (h : t.Room n) (hFull : t.limit ≤ n) : t.mayFault :=
  h.resolve_right (Nat.not_lt.mpr (Nat.le_trans t.depth_le hFull))

theorem placed_cons {s : Statement} (hCell : s.makesCell = true) {address : Nat}
    {rest : List Statement} : t.Placed address (s :: rest) ↔
      t.text address = s.record? t.linking ∧ t.Placed (address + 1) rest := by
  cases s <;> first | exact Iff.rfl | cases hCell

/-- Statements in a row stand in a row. -/
theorem Placed.append {xs ys : List Statement} {address : Nat}
    (hCode : t.Placed address (xs ++ ys)) :
    t.Placed address xs ∧ t.Placed (address + (cellStatements xs).length) ys := by
  induction xs generalizing address with
  | nil => exact ⟨trivial, hCode⟩
  | cons s xs ih =>
    -- a label takes no address of its own
    by_cases hCell : s.makesCell = true
    · obtain ⟨hText, hRest⟩ := (placed_cons hCell).mp hCode
      obtain ⟨hFront, hBack⟩ := ih hRest
      refine ⟨(placed_cons hCell).mpr ⟨hText, hFront⟩, ?_⟩
      rw [cellStatements, List.filter_cons_of_pos hCell, List.length_cons]
      rwa [show address + 1 + (cellStatements xs).length =
        address + ((List.filter Statement.makesCell xs).length + 1) from
          Nat.add_right_comm ..] at hBack
    · obtain ⟨name, rfl⟩ : ∃ name, s = .label name := by
        cases s <;> first | exact ⟨_, rfl⟩ | exact absurd rfl hCell
      obtain ⟨hLabel, hRest⟩ := hCode
      obtain ⟨hFront, hBack⟩ := ih hRest
      exact ⟨⟨hLabel, hFront⟩, hBack⟩

theorem Shows.keeps {v : View σ} {address : Nat} {e : Engine σ} (h : t.Shows v address e)
    (hFits : t.Fits v.stack.length) : t.Keeps e :=
  ⟨⟨h.depth, h.stack ▸ hFits⟩, v.memory, h.allowed, h.cells⟩

variable [RandomSource σ] (t)

/-- The engine gets to where the stretch ends, whatever is drawn on the way. -/
inductive Leads : Engine σ → Prop
  | waiting {e : Engine σ} : e.phase = .awaitingInput → e.fault = none → t.Keeps e →
      t.waits e → Leads e
  | faulted {e : Engine σ} : t.mayFault → e.phase = .errored → t.Keeps e → t.faults e → Leads e
  | ended {e : Engine σ} : e.phase.canStep = true → e.fault = none → t.Keeps e → t.ends e →
      Leads e
  | step {e : Engine σ} : e.phase.canStep = true → e.fault = none → t.Keeps e →
      Leads e.next → Leads e

/-- Every engine that shows the view at the address, and is free to run, gets there. -/
def From (address : Nat) (v : View σ) : Prop :=
  t.Fits v.stack.length →
    ∀ e : Engine σ, e.phase.canStep = true → t.Shows v address e → t.Leads e

variable {t}

-- ---------------------------------------------------------------------------
-- One instruction
-- ---------------------------------------------------------------------------

section Instruction

variable {v : View σ} {address target : Nat} {op : Opcode} {operand : Option Nat}

theorem run_next (hText : t.allows v.memory → v.memory address = some (.instruction op operand))
    (hPops : op.pops ≤ v.stack.length) {e : Engine σ} (hShows : t.Shows v address e) :
    ∃ e₁ : Engine σ, t.Shows v (address + 1) e₁ ∧ e₁.phase = .running ∧
      executeNext.run { e with phase := .running } = (execute address op operand).run e₁ := by
  obtain rfl : e.ip = address := hShows.ip
  have hRecord := t.wellFormed_of_allows hShows.allowed (hText hShows.allowed)
  have hCell : e.memory.read? e.ip = some (Record.instruction op operand).chunk :=
    hShows.cells.read (hText hShows.allowed)
  have hPops' : op.pops ≤ e.stack.length := hShows.stack ▸ hPops
  refine ⟨_, ?_, ?_, executeNext_instruction (e := { e with phase := .running }) hCell
    hRecord.decode_chunk hPops'⟩
  · exact ⟨rfl, hShows.stack, hShows.calls, hShows.printed, hShows.random, hShows.depth,
      hShows.fault, hShows.cells, hShows.allowed⟩
  · rfl

/-- An instruction that is carried out leads to where it leaves the engine. -/
theorem from_of_ok (v' : View σ)
    (hText : t.allows v.memory → v.memory address = some (.instruction op operand))
    (hPops : op.pops ≤ v.stack.length)
    (hExecute : ∀ e, t.Shows v (address + 1) e → ∃ out e',
      (execute address op operand).run e = .ok out e' ∧ e'.phase = e.phase ∧
        t.Shows v' target e')
    (next : t.From target v') (hHeight : t.Fits v.stack.length → t.Fits v'.stack.length) :
    t.From address v := by
  intro hFits e hPhase hShows
  obtain ⟨e₁, hShows₁, hRunning, hRun⟩ := run_next hText hPops hShows
  obtain ⟨out, e', hOk, hSame, hShows'⟩ := hExecute e₁ hShows₁
  refine .step hPhase hShows.fault (hShows.keeps hFits) ?_
  have hNext : e.next = (e'.snapshot out).2 := by
    rw [Engine.next, Engine.advance, hRun, hOk]
  rw [hNext]
  -- showing the result changes nothing but the mark that memory was written to
  refine next (hHeight hFits) _ ?_ ⟨hShows'.ip, hShows'.stack, hShows'.calls, hShows'.printed,
    hShows'.random, hShows'.depth, hShows'.fault, hShows'.cells, hShows'.allowed⟩
  show e'.phase.canStep = true
  rw [hSame, hRunning]
  rfl

/-- A fault ends the stretch if it may, and if there is a reason for it that is allowed. -/
theorem from_of_error
    (hText : t.allows v.memory → v.memory address = some (.instruction op operand))
    (hPops : op.pops ≤ v.stack.length) (hMay : t.mayFault)
    (hExecute : ∀ e, t.Shows v (address + 1) e → ∃ fault e',
      (execute address op operand).run e = .error fault e' ∧ t.Keeps e' ∧
        (t.limit ≤ e'.stack.length ∨ ∀ e, t.faults e)) :
    t.From address v := by
  intro hFits e hPhase hShows
  obtain ⟨e₁, hShows₁, hRunning, hRun⟩ := run_next hText hPops hShows
  obtain ⟨fault, e', hError, hKeeps, hReason⟩ := hExecute e₁ hShows₁
  refine .step hPhase hShows.fault (hShows.keeps hFits) ?_
  have hNext : e.next = ((e'.fail fault).snapshot none).2 := by
    rw [Engine.next, Engine.advance, hRun, hError]
  rw [hNext]
  refine .faulted hMay rfl ⟨⟨hKeeps.depth, hKeeps.height⟩, hKeeps.memory⟩ ?_
  rcases hReason with hFull | hAny
  · exact t.faults_of_full _ hFull
  · exact hAny _

/-- An instruction whose last part pushes its result. -/
theorem from_of_pushLast (v' : View σ) {w : Word}
    (hText : t.allows v.memory → v.memory address = some (.instruction op operand))
    (hPops : op.pops ≤ v.stack.length)
    (hExecute : ∀ e, t.Shows v (address + 1) e → ∃ e',
      (execute address op operand).run e = (pushLast w).run e' ∧ e'.phase = e.phase ∧
        t.Shows v' (address + 1) e')
    (hRoom : t.Room v'.stack.length)
    (next : t.From (address + 1) { v' with stack := w :: v'.stack }) : t.From address v := by
  rcases Nat.lt_or_ge v'.stack.length t.limit with hLt | hFull
  · refine from_of_ok _ hText hPops (fun e hShows => ?_) next fun _ => hRoom
    obtain ⟨e', hRun, hSame, hShows'⟩ := hExecute e hShows
    have hRoom' : e'.stack.length < e'.maxStackDepth := by
      rw [hShows'.stack, hShows'.depth]
      exact hLt
    refine ⟨_, _, hRun.trans (run_pushLast_room w hRoom'), hSame, ?_⟩
    exact ⟨hShows'.ip, congrArg (w :: ·) hShows'.stack, hShows'.calls, hShows'.printed,
      hShows'.random, hShows'.depth, hShows'.fault, hShows'.cells, hShows'.allowed⟩
  · -- the stack is full, which is a fault that has to be allowed
    have hMay : t.mayFault := hRoom.mayFault hFull
    refine from_of_error hText hPops hMay fun e hShows => ?_
    obtain ⟨e', hRun, -, hShows'⟩ := hExecute e hShows
    have hFull' : t.limit ≤ e'.stack.length := by
      rw [hShows'.stack]
      exact hFull
    exact ⟨_, _, hRun.trans (run_pushLast_full w (hShows'.depth ▸ hFull')),
      hShows'.keeps (.inl hMay), .inl hFull'⟩

end Instruction

-- ---------------------------------------------------------------------------
-- One statement
-- ---------------------------------------------------------------------------

section Statements

open Statement

variable {memory memory' : Picture} {stack : List Word} {calls : List Nat} {printed : List Word}
  {random : σ} {address : Nat} {rest : List Statement}

/-- A push, wherever it stands. -/
theorem from_cell_push {n : Nat} (hCell : t.allows memory → memory address = some (.push n))
    (hRoom : t.Room stack.length)
    (next : t.From (address + 1) ⟨memory, (n : Int) :: stack, calls, printed, random⟩) :
    t.From address ⟨memory, stack, calls, printed, random⟩ :=
  from_of_pushLast ⟨memory, stack, calls, printed, random⟩ hCell (Nat.zero_le _)
    (fun e hShows => ⟨e, execute_push address n, rfl, hShows⟩) hRoom next

/-- An addition, wherever it stands. -/
theorem from_cell_add {x y : Int} (hCell : t.allows memory → memory address = some (.ofOpcode .add))
    (hLow : -(2 ^ 127) ≤ x + y) (hHigh : x + y < 2 ^ 127) (hRoom : t.Room stack.length)
    (next : t.From (address + 1) ⟨memory, (x + y) :: stack, calls, printed, random⟩) :
    t.From address ⟨memory, y :: x :: stack, calls, printed, random⟩ := by
  refine from_of_pushLast ⟨memory, stack, calls, printed, random⟩ hCell
    (Nat.le_add_left 2 stack.length) (fun e hShows => ?_) hRoom next
  refine ⟨{ e with stack }, execute_add address none hShows.stack hLow hHigh, rfl, ?_⟩
  exact { hShows with stack := rfl }

/-- No operation, wherever it stands. -/
theorem from_cell_nop (hCell : t.allows memory → memory address = some (.ofOpcode .nop))
    (next : t.From (address + 1) ⟨memory, stack, calls, printed, random⟩) :
    t.From address ⟨memory, stack, calls, printed, random⟩ :=
  from_of_ok _ hCell (Nat.zero_le _) (fun e hShows => ⟨none, e, rfl, rfl, hShows⟩) next id

theorem from_push {n : Nat} (hCode : t.Placed address (.push n :: rest))
    (hRoom : t.Room stack.length)
    (next : t.Placed (address + 1) rest →
      t.From (address + 1) ⟨memory, (n : Int) :: stack, calls, printed, random⟩) :
    t.From address ⟨memory, stack, calls, printed, random⟩ :=
  from_cell_push (fun h => t.text_of_allows h hCode.1) hRoom (next hCode.2)

/-- A push onto a full stack is a fault. -/
theorem from_push_full {n : Nat} (hCode : t.Placed address (.push n :: rest)) (hMay : t.mayFault)
    (hFull : t.limit ≤ stack.length) :
    t.From address ⟨memory, stack, calls, printed, random⟩ := by
  refine from_of_error (fun h => t.text_of_allows h hCode.1) (Nat.zero_le _) hMay
    fun e hShows => ?_
  have hFull' : t.limit ≤ e.stack.length := by
    rw [hShows.stack]
    exact hFull
  exact ⟨_, _, (execute_push address n).trans (run_pushLast_full n (hShows.depth ▸ hFull')),
    hShows.keeps (.inl hMay), .inl hFull'⟩

theorem from_pushLabel {name : String} (hCode : t.Placed address (.pushLabel name :: rest))
    (hRoom : t.Room stack.length)
    (next : t.Placed (address + 1) rest → t.From (address + 1)
      ⟨memory, (t.linking.label name : Int) :: stack, calls, printed, random⟩) :
    t.From address ⟨memory, stack, calls, printed, random⟩ :=
  from_cell_push (fun h => t.text_of_allows h hCode.1) hRoom (next hCode.2)

theorem from_pushSlot {slot : SlotRef} (hCode : t.Placed address (.pushSlot slot :: rest))
    (hRoom : t.Room stack.length)
    (next : t.Placed (address + 1) rest → t.From (address + 1)
      ⟨memory, (t.linking.slot slot : Int) :: stack, calls, printed, random⟩) :
    t.From address ⟨memory, stack, calls, printed, random⟩ :=
  from_cell_push (fun h => t.text_of_allows h hCode.1) hRoom (next hCode.2)

theorem from_label {name : String} (hCode : t.Placed address (.label name :: rest))
    (next : t.Placed address rest → t.From address ⟨memory, stack, calls, printed, random⟩) :
    t.From address ⟨memory, stack, calls, printed, random⟩ := next hCode.2

theorem from_add {x y : Int} (hCode : t.Placed address (.op .add :: rest))
    (hLow : -(2 ^ 127) ≤ x + y) (hHigh : x + y < 2 ^ 127) (hRoom : t.Room stack.length)
    (next : t.Placed (address + 1) rest →
      t.From (address + 1) ⟨memory, (x + y) :: stack, calls, printed, random⟩) :
    t.From address ⟨memory, y :: x :: stack, calls, printed, random⟩ :=
  from_cell_add (fun h => t.text_of_allows h hCode.1) hLow hHigh hRoom (next hCode.2)

theorem from_mod {x y : Int} (hCode : t.Placed address (.op .mod :: rest)) (hPos : 0 < y)
    (hRoom : t.Room stack.length)
    (next : t.Placed (address + 1) rest →
      t.From (address + 1) ⟨memory, (x % y) :: stack, calls, printed, random⟩) :
    t.From address ⟨memory, y :: x :: stack, calls, printed, random⟩ := by
  refine from_of_pushLast ⟨memory, stack, calls, printed, random⟩
    (fun h => t.text_of_allows h hCode.1) (Nat.le_add_left 2 stack.length)
    (fun e hShows => ?_) hRoom (next hCode.2)
  refine ⟨{ e with stack }, execute_mod address none hShows.stack hPos, rfl, ?_⟩
  exact { hShows with stack := rfl }

theorem from_compareEq {x y : Int} (hCode : t.Placed address (.op .compareEq :: rest))
    (hRoom : t.Room stack.length)
    (next : t.Placed (address + 1) rest → t.From (address + 1)
      ⟨memory, (if x = y then 1 else 0) :: stack, calls, printed, random⟩) :
    t.From address ⟨memory, y :: x :: stack, calls, printed, random⟩ := by
  refine from_of_pushLast ⟨memory, stack, calls, printed, random⟩
    (fun h => t.text_of_allows h hCode.1) (Nat.le_add_left 2 stack.length)
    (fun e hShows => ?_) hRoom (next hCode.2)
  refine ⟨{ e with stack }, execute_compareEq address none hShows.stack, rfl, ?_⟩
  exact { hShows with stack := rfl }

theorem from_dup {w : Word} (hCode : t.Placed address (.op .dup :: rest))
    (hRoom : t.Room (stack.length + 1))
    (next : t.Placed (address + 1) rest →
      t.From (address + 1) ⟨memory, w :: w :: stack, calls, printed, random⟩) :
    t.From address ⟨memory, w :: stack, calls, printed, random⟩ :=
  from_of_pushLast ⟨memory, w :: stack, calls, printed, random⟩
    (fun h => t.text_of_allows h hCode.1) (Nat.le_add_left 1 stack.length)
    (fun e hShows => ⟨e, execute_dup address none hShows.stack, rfl, hShows⟩) hRoom (next hCode.2)

theorem from_swap {x y : Word} (hCode : t.Placed address (.op .swap :: rest))
    (next : t.Placed (address + 1) rest →
      t.From (address + 1) ⟨memory, x :: y :: stack, calls, printed, random⟩) :
    t.From address ⟨memory, y :: x :: stack, calls, printed, random⟩ := by
  refine from_of_ok _ (fun h => t.text_of_allows h hCode.1) (Nat.le_add_left 2 stack.length)
    (fun e hShows => ?_) (next hCode.2) id
  exact ⟨_, _, execute_swap address none hShows.stack, rfl, { hShows with stack := rfl }⟩

theorem from_drop {w : Word} (hCode : t.Placed address (.op .drop :: rest))
    (next : t.Placed (address + 1) rest →
      t.From (address + 1) ⟨memory, stack, calls, printed, random⟩) :
    t.From address ⟨memory, w :: stack, calls, printed, random⟩ := by
  refine from_of_ok _ (fun h => t.text_of_allows h hCode.1) (Nat.le_add_left 1 stack.length)
    (fun e hShows => ?_) (next hCode.2) fun hFits => hFits.mono (Nat.le_succ _)
  exact ⟨_, _, execute_drop address none hShows.stack, rfl, { hShows with stack := rfl }⟩

theorem from_print {w : Word} (hCode : t.Placed address (.op .print :: rest))
    (next : t.Placed (address + 1) rest →
      t.From (address + 1) ⟨memory, stack, calls, w :: printed, random⟩) :
    t.From address ⟨memory, w :: stack, calls, printed, random⟩ := by
  refine from_of_ok _ (fun h => t.text_of_allows h hCode.1) (Nat.le_add_left 1 stack.length)
    (fun e hShows => ?_) (next hCode.2) fun hFits => hFits.mono (Nat.le_succ _)
  refine ⟨_, _, execute_print address none hShows.stack, rfl, ?_⟩
  exact { hShows with stack := rfl, printed := congrArg (w :: ·) hShows.printed }

/-- A wait for input ends the stretch, if it is one that does. -/
theorem from_input (hCode : t.Placed address (.op .input :: rest))
    (hWaits : ∀ e : Engine σ, e.phase = .awaitingInput →
      t.Shows ⟨memory, stack, calls, printed, random⟩ (address + 1) e → t.waits e) :
    t.From address ⟨memory, stack, calls, printed, random⟩ := by
  intro hFits e hPhase hShows
  obtain ⟨e₁, hShows₁, -, hRun⟩ := run_next
    (fun h => t.text_of_allows h hCode.1) (Nat.zero_le _) hShows
  refine .step hPhase hShows.fault (hShows.keeps hFits) ?_
  -- the step that asks for input is the last one of the stretch
  have hNext : e.next = (({ e₁ with phase := .awaitingInput }.record .inputRequested).snapshot
      none).2 := by
    rw [Engine.next, Engine.advance, hRun, execute_input]
  have hShows' : t.Shows ⟨memory, stack, calls, printed, random⟩ (address + 1) e.next := by
    rw [hNext]
    exact ⟨hShows₁.ip, hShows₁.stack, hShows₁.calls, hShows₁.printed, hShows₁.random,
      hShows₁.depth, hShows₁.fault, hShows₁.cells, hShows₁.allowed⟩
  have hPhase' : e.next.phase = .awaitingInput := by
    rw [hNext]
    rfl
  exact .waiting hPhase' hShows'.fault (hShows'.keeps hFits) (hWaits _ hPhase' hShows')

theorem from_random {b : Nat} (hCode : t.Placed address (.op .random :: rest)) (hPos : 0 < b)
    (hRoom : t.Room stack.length)
    (next : t.Placed (address + 1) rest → ∀ (n : Nat) (random' : σ),
      RandomSource.draw 128 b random = (n, random') → n < b →
        t.From (address + 1) ⟨memory, (n : Int) :: stack, calls, printed, random'⟩) :
    t.From address ⟨memory, (b : Int) :: stack, calls, printed, random⟩ := by
  refine from_of_pushLast ⟨memory, stack, calls, printed, (RandomSource.draw 128 b random).2⟩
    (fun h => t.text_of_allows h hCode.1) (Nat.le_add_left 1 stack.length)
    (fun e hShows => ?_) hRoom
    (next hCode.2 _ _ rfl (RandomSource.draw_lt 128 b random hPos))
  have hRandom : e.random = random := hShows.random
  have hRun := execute_random address none hPos hShows.stack
  rw [hRandom] at hRun
  exact ⟨_, hRun, rfl, { hShows with stack := rfl, random := rfl }⟩

-- ---------------------------------------------------------------------------
-- Control transfers
-- ---------------------------------------------------------------------------

/-- A label stands at a cell, in every memory that may occur. -/
def Enters (t : Terms σ) (name : String) : Prop :=
  ∀ picture, t.allows picture → (picture (t.linking.label name)).isSome

omit [RandomSource σ] in
theorem Placed.enters {name : String} (hCode : t.Placed address (.label name :: rest)) :
    t.Enters name := by
  intro picture hAllows
  obtain ⟨⟨rfl, hSome⟩, -⟩ := hCode
  obtain ⟨r, hText⟩ := Option.isSome_iff_exists.mp hSome
  rw [t.text_of_allows hAllows hText]
  rfl

omit [RandomSource σ] in
/-- A label in the middle stands at what follows it. -/
theorem Placed.at_label {xs ys : List Statement} {name : String}
    (hCode : t.Placed address (xs ++ .label name :: ys)) :
    t.Placed (t.linking.label name) ys ∧ t.Enters name ∧
      t.linking.label name = address + (cellStatements xs).length := by
  obtain ⟨-, hLabel⟩ := hCode.append
  have hEnters := Placed.enters hLabel
  obtain ⟨⟨hAddress, -⟩, hRest⟩ := hLabel
  exact ⟨hAddress ▸ hRest, hEnters, hAddress⟩

/-- A jump to a label, with its address on the stack. -/
theorem from_jump {name : String} (hCode : t.Placed address (.op .jump :: rest))
    (hEnters : t.Enters name)
    (next : t.From (t.linking.label name) ⟨memory, stack, calls, printed, random⟩) :
    t.From address ⟨memory, (t.linking.label name : Int) :: stack, calls, printed, random⟩ := by
  refine from_of_ok _ (fun h => t.text_of_allows h hCode.1) (Nat.le_add_left 1 stack.length)
    (fun e hShows => ?_) next fun hFits => hFits.mono (Nat.le_succ _)
  -- the label stands at a cell, so its address is one that a jump accepts
  have hTarget := hShows.cells.lt_size (hEnters _ hShows.allowed)
  exact ⟨_, _, execute_jump address none hShows.stack hTarget, rfl,
    { hShows with ip := rfl, stack := rfl }⟩

theorem from_jumpTo {name : String} (hCode : t.Placed address (jumpTo name ++ rest))
    (hEnters : t.Enters name) (hRoom : t.Room stack.length)
    (next : t.From (t.linking.label name) ⟨memory, stack, calls, printed, random⟩) :
    t.From address ⟨memory, stack, calls, printed, random⟩ := by
  refine from_pushLabel hCode hRoom fun hCode => ?_
  exact from_jump hCode hEnters next

/-- A branch on the top of the stack: zero goes on at the label. -/
theorem from_branchIfFalse {name : String} {w : Int}
    (hCode : t.Placed address (branchIfFalse name ++ rest)) (hEnters : t.Enters name)
    (hRoom : t.Room (stack.length + 1))
    (ifZero : w = 0 → t.From (t.linking.label name) ⟨memory, stack, calls, printed, random⟩)
    (otherwise : w ≠ 0 → t.Placed (address + 3) rest →
      t.From (address + 3) ⟨memory, stack, calls, printed, random⟩) :
    t.From address ⟨memory, w :: stack, calls, printed, random⟩ := by
  refine from_pushLabel hCode hRoom fun hCode => ?_
  refine from_swap hCode fun hCode => ?_
  by_cases hw : w = 0
  · subst hw
    refine from_of_ok _ (fun h => t.text_of_allows h hCode.1) (Nat.le_add_left 2 stack.length)
      (fun e hShows => ?_) (ifZero rfl) fun hFits => hFits.mono (Nat.le_add_right _ 2)
    have hTarget := hShows.cells.lt_size (hEnters _ hShows.allowed)
    exact ⟨_, _, execute_jumpIfZero_zero _ none hShows.stack hTarget, rfl,
      { hShows with ip := rfl, stack := rfl }⟩
  · refine from_of_ok _ (fun h => t.text_of_allows h hCode.1) (Nat.le_add_left 2 stack.length)
      (fun e hShows => ?_) (otherwise hw hCode.2) fun hFits => hFits.mono (Nat.le_add_right _ 2)
    exact ⟨_, _, execute_jumpIfZero_nonzero _ none hShows.stack hw, rfl,
      { hShows with stack := rfl }⟩

/-- Two words are compared, and the run goes on at the label unless they are the same. -/
theorem from_branchUnlessEqual {name : String} {x y : Int}
    (hCode : t.Placed address (.op .compareEq :: (branchIfFalse name ++ rest)))
    (hEnters : t.Enters name) (hRoom : t.Room (stack.length + 1))
    (differ : x ≠ y → t.From (t.linking.label name) ⟨memory, stack, calls, printed, random⟩)
    (same : x = y → t.Placed (address + 4) rest →
      t.From (address + 4) ⟨memory, stack, calls, printed, random⟩) :
    t.From address ⟨memory, y :: x :: stack, calls, printed, random⟩ := by
  refine from_compareEq hCode (hRoom.mono (Nat.le_succ _)) fun hCode => ?_
  by_cases hSame : x = y
  · rw [if_pos hSame]
    exact from_branchIfFalse hCode hEnters hRoom (fun hZero => absurd hZero (by decide))
      fun _ hCode => same hSame hCode
  · rw [if_neg hSame]
    exact from_branchIfFalse hCode hEnters hRoom (fun _ => differ hSame)
      fun hNonzero => absurd rfl hNonzero

/-- A call leaves the address after it on the call stack, which is no higher than the operand
stack. -/
theorem from_callTo {name : String} (hCode : t.Placed address (callTo name ++ rest))
    (hEnters : t.Enters name) (hRoom : t.Room stack.length)
    (hCalls : calls.length ≤ stack.length)
    (next : t.Placed (address + 2) rest → t.From (t.linking.label name)
      ⟨memory, stack, (address + 2) :: calls, printed, random⟩) :
    t.From address ⟨memory, stack, calls, printed, random⟩ := by
  refine from_pushLabel hCode hRoom fun hCode => ?_
  rcases Nat.lt_or_ge calls.length t.limit with hLt | hFull
  · refine from_of_ok _ (fun h => t.text_of_allows h hCode.1) (Nat.le_add_left 1 stack.length)
      (fun e hShows => ?_) (next hCode.2) fun hFits => hFits.mono (Nat.le_succ _)
    have hTarget := hShows.cells.lt_size (hEnters _ hShows.allowed)
    have hRoom' : e.callStack.length < e.maxStackDepth := by
      rw [hShows.calls, hShows.depth]
      exact hLt
    refine ⟨_, _, execute_call_room _ none hShows.stack hTarget hRoom', rfl, ?_⟩
    have hPushed : e.ip :: e.callStack = (address + 2) :: calls := by
      rw [hShows.ip, hShows.calls]
    exact { hShows with ip := rfl, stack := rfl, calls := hPushed }
  · have hBoth : t.limit ≤ stack.length := Nat.le_trans hFull hCalls
    have hMay : t.mayFault := hRoom.mayFault hBoth
    refine from_of_error (fun h => t.text_of_allows h hCode.1) (Nat.le_add_left 1 stack.length)
      hMay fun e hShows => ?_
    have hTarget := hShows.cells.lt_size (hEnters _ hShows.allowed)
    have hFull' : e.maxStackDepth ≤ e.callStack.length := by
      rw [hShows.calls, hShows.depth]
      exact hFull
    exact ⟨_, _, execute_call_full _ none hShows.stack hTarget hFull',
      ⟨⟨hShows.depth, .inl hMay⟩, (hShows.keeps (.inl hMay)).memory⟩, .inl hBoth⟩

theorem from_ret {target : Nat} (hCode : t.Placed address (.op .ret :: rest))
    (next : t.From target ⟨memory, stack, calls, printed, random⟩) :
    t.From address ⟨memory, stack, target :: calls, printed, random⟩ := by
  refine from_of_ok _ (fun h => t.text_of_allows h hCode.1) (Nat.zero_le _)
    (fun e hShows => ?_) next id
  exact ⟨_, _, execute_ret address none hShows.calls, rfl,
    { hShows with ip := rfl, calls := rfl }⟩

end Statements

end Terms

end FactorMachine
