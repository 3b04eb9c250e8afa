import FactorMachine.Engine.Run
import FactorMachine.Proofs.Assembly.Placement
import FactorMachine.Proofs.Engine.Calls
import FactorMachine.Proofs.Engine.History

/-!
# FactorMachine — a counted number of steps

Where the instructions in front of an engine are known, a run of them is one equation for each:
the engine after so many steps is the one after the first instruction, and fewer steps. What an
instruction does not touch is said once, by `Engine.passed`: it was recorded, and everything is
shown. A row of instructions that leave memory alone is an `Engine.ran`.

## Results

* `Engine.steps_of_run` — one more step, for any instruction.
* `Engine.steps_push`, `Engine.steps_swap`, … — one equation for each instruction.
* `Engine.steps_of_fault` — the last step, for any instruction.
* `Engine.steps_push_jump`, … — an address that is pushed and then gone to.
-/

namespace FactorMachine

open Operation

variable {σ : Type} [RandomSource σ]

namespace Engine

-- ---------------------------------------------------------------------------
-- A number of steps
-- ---------------------------------------------------------------------------

variable {e : Engine σ}

/-- The engine after so many steps. -/
def steps : Nat → Engine σ → Except Refusal (Engine σ)
  | 0, e => .ok e
  | n + 1, e => e.step >>= fun (_, e') => e'.steps n

/-- Steps in a row are made one group after the other. -/
theorem steps_trans (m n : Nat) (e : Engine σ) : e.steps (m + n) = e.steps m >>= steps n := by
  induction m generalizing e with
  | zero =>
    rw [Nat.zero_add]
    rfl
  | succ m ih =>
    rw [Nat.succ_add, steps, steps]
    cases e.step with
    | error refusal => rfl
    | ok shown => exact ih shown.2

theorem steps_of_steps {m : Nat} {e' : Engine σ} (h : e.steps m = .ok e') (n : Nat) :
    e.steps (m + n) = e'.steps n := by
  rw [steps_trans, h]
  rfl

omit [RandomSource σ] in
/-- The engine that carries out its next instruction. -/
def carriesOut (e : Engine σ) (op : Opcode) : Engine σ :=
  { e.record (.executed e.ip op) with phase := .running, ip := e.ip + 1 }

/-- One more step, which carries out the instruction that is fetched. -/
theorem steps_of_run {op : Opcode} {operand : Option Nat} {e' : Engine σ} {output : Option Word}
    (hFree : e.phase.canStep = true)
    (hCell : DecodesTo e.memory.cells e.ip (.instruction op operand))
    (hPops : op.pops ≤ e.stack.length)
    (hRun : (execute e.ip op operand).run (e.carriesOut op) = .ok output e') (n : Nat) :
    e.steps (n + 1) = (e'.snapshot output).2.steps n := by
  obtain ⟨chunk, hChunk, hDecode⟩ := hCell
  have hNext : executeNext.run { e with phase := .running } = .ok output e' :=
    (executeNext_instruction (e := { e with phase := .running }) hChunk hDecode hPops).trans hRun
  have hAdvance : ({ e with phase := .running } : Engine σ).advance = e'.snapshot output := by
    rw [advance, hNext]
  have hStep : e.step = .ok (e'.snapshot output) := step_eq_ok_iff.mpr ⟨hFree, hAdvance⟩
  rw [steps, hStep]
  rfl

/-- The engine after instructions that did nothing else: they are recorded, and everything is
shown. -/
def passed (e : Engine σ) (events : List Event) : Engine σ :=
  { e with
    phase := .running
    memory := e.memory.takeDirty.2
    history := e.history.recordAll events }

omit [RandomSource σ] in
/-- The engine after instructions, each with its address, that have only moved it on and worked on
its stack. -/
def ran (e : Engine σ) (trace : List (Nat × Opcode)) (ip : Nat) (stack : List Word) : Engine σ :=
  { e.passed (trace.map fun step => .executed step.1 step.2) with ip, stack }

omit [RandomSource σ] in
theorem ran_ran (e : Engine σ) (xs ys : List (Nat × Opcode)) (a b : Nat) (ws vs : List Word) :
    (e.ran xs a ws).ran ys b vs = e.ran (xs ++ ys) b vs := by
  simp [ran, passed, History.recordAll_append, Memory.takeDirty]

omit [RandomSource σ] in
/-- The engine after such instructions, the last of which has written a cell. -/
def wrote (e : Engine σ) (trace : List (Nat × Opcode)) (ip : Nat) (stack : List Word) (a : Nat)
    (c : Chunk) : Engine σ :=
  { e.passed (trace.map (fun step => .executed step.1 step.2) ++ [.poke a]) with
    ip
    stack
    memory := ⟨e.memory.cells.setIfInBounds a c, false⟩ }

omit [RandomSource σ] in
theorem ran_wrote (e : Engine σ) (xs ys : List (Nat × Opcode)) (ip ip' : Nat) (ws vs : List Word)
    (a : Nat) (c : Chunk) : (e.ran xs ip ws).wrote ys ip' vs a c = e.wrote (xs ++ ys) ip' vs a c := by
  simp [ran, wrote, passed, History.recordAll_append, Memory.takeDirty]

section Instructions

variable {a : Nat} {w x y : Word} {rest : List Word} (hFree : e.phase.canStep = true) (n : Nat)
include hFree

theorem steps_push (hCell : DecodesTo e.memory.cells e.ip (.push a))
    (hRoom : e.stack.length < e.maxStackDepth) : e.steps (n + 1) =
      ({ e.passed [.executed e.ip .push] with ip := e.ip + 1, stack := a :: e.stack } :
        Engine σ).steps n :=
  steps_of_run hFree hCell (Nat.zero_le _) (run_pushLast_room (e := e.carriesOut .push) a hRoom) n

theorem steps_swap (hCell : DecodesTo e.memory.cells e.ip (.ofOpcode .swap))
    (hStack : e.stack = y :: x :: rest) : e.steps (n + 1) =
      ({ e.passed [.executed e.ip .swap] with ip := e.ip + 1, stack := x :: y :: rest } :
        Engine σ).steps n := by
  have hPops : Opcode.swap.pops ≤ e.stack.length := hStack ▸ Nat.le_add_left 2 rest.length
  exact steps_of_run hFree hCell hPops (execute_swap (e := e.carriesOut .swap) _ none hStack) n

/-- The result of an addition is a word. -/
theorem steps_add (hCell : DecodesTo e.memory.cells e.ip (.ofOpcode .add))
    (hStack : e.stack = y :: x :: rest) (hLow : -(2 ^ 127) ≤ x + y) (hHigh : x + y < 2 ^ 127)
    (hRoom : rest.length < e.maxStackDepth) : e.steps (n + 1) =
      ({ e.passed [.executed e.ip .add] with ip := e.ip + 1, stack := (x + y) :: rest } :
        Engine σ).steps n := by
  have hPops : Opcode.add.pops ≤ e.stack.length := hStack ▸ Nat.le_add_left 2 rest.length
  exact steps_of_run hFree hCell hPops
    ((execute_add (e := e.carriesOut .add) _ none hStack hLow hHigh).trans
      (run_pushLast_room (e := { e.carriesOut .add with stack := rest }) _ hRoom)) n

theorem steps_nop (hCell : DecodesTo e.memory.cells e.ip (.ofOpcode .nop)) : e.steps (n + 1) =
    ({ e.passed [.executed e.ip .nop] with ip := e.ip + 1 } : Engine σ).steps n :=
  steps_of_run hFree hCell (Nat.zero_le _) (execute_nop (e := e.carriesOut .nop) _ none) n

theorem steps_dup (hCell : DecodesTo e.memory.cells e.ip (.ofOpcode .dup))
    (hStack : e.stack = w :: rest) (hRoom : e.stack.length < e.maxStackDepth) : e.steps (n + 1) =
      ({ e.passed [.executed e.ip .dup] with ip := e.ip + 1, stack := w :: e.stack } :
        Engine σ).steps n := by
  have hPops : Opcode.dup.pops ≤ e.stack.length := hStack ▸ Nat.le_add_left 1 rest.length
  exact steps_of_run hFree hCell hPops
    ((execute_dup (e := e.carriesOut .dup) _ none hStack).trans
      (run_pushLast_room (e := e.carriesOut .dup) w hRoom)) n

theorem steps_drop (hCell : DecodesTo e.memory.cells e.ip (.ofOpcode .drop))
    (hStack : e.stack = w :: rest) : e.steps (n + 1) =
      ({ e.passed [.executed e.ip .drop] with ip := e.ip + 1, stack := rest } : Engine σ).steps
        n := by
  have hPops : Opcode.drop.pops ≤ e.stack.length := hStack ▸ Nat.le_add_left 1 rest.length
  exact steps_of_run hFree hCell hPops (execute_drop (e := e.carriesOut .drop) _ none hStack) n

theorem steps_compareEq (hCell : DecodesTo e.memory.cells e.ip (.ofOpcode .compareEq))
    (hStack : e.stack = y :: x :: rest) (hRoom : rest.length < e.maxStackDepth) :
    e.steps (n + 1) =
      ({ e.passed [.executed e.ip .compareEq] with
          ip := e.ip + 1, stack := (if x = y then 1 else 0) :: rest } : Engine σ).steps n := by
  have hPops : Opcode.compareEq.pops ≤ e.stack.length := hStack ▸ Nat.le_add_left 2 rest.length
  exact steps_of_run hFree hCell hPops
    ((execute_compareEq (e := e.carriesOut .compareEq) _ none hStack).trans
      (run_pushLast_room (e := { e.carriesOut .compareEq with stack := rest }) _ hRoom)) n

theorem steps_print (hCell : DecodesTo e.memory.cells e.ip (.ofOpcode .print))
    (hStack : e.stack = w :: rest) : e.steps (n + 1) =
      ({ e.passed [.executed e.ip .print, .output w] with
          ip := e.ip + 1, stack := rest, printed := w :: e.printed } : Engine σ).steps n := by
  have hPops : Opcode.print.pops ≤ e.stack.length := hStack ▸ Nat.le_add_left 1 rest.length
  exact steps_of_run hFree hCell hPops (execute_print (e := e.carriesOut .print) _ none hStack) n

theorem steps_input (hCell : DecodesTo e.memory.cells e.ip (.ofOpcode .input)) :
    e.steps (n + 1) =
      ({ e.passed [.executed e.ip .input, .inputRequested] with
          ip := e.ip + 1, phase := .awaitingInput } : Engine σ).steps n :=
  steps_of_run hFree hCell (Nat.zero_le _) (execute_input (e := e.carriesOut .input) _ none) n

theorem steps_jump (hCell : DecodesTo e.memory.cells e.ip (.ofOpcode .jump))
    (hStack : e.stack = (a : Int) :: rest) (ha : a < e.memory.size) : e.steps (n + 1) =
      ({ e.passed [.executed e.ip .jump] with ip := a, stack := rest } : Engine σ).steps n := by
  have hPops : Opcode.jump.pops ≤ e.stack.length := hStack ▸ Nat.le_add_left 1 rest.length
  exact steps_of_run hFree hCell hPops (execute_jump (e := e.carriesOut .jump) _ none hStack ha) n

theorem steps_call (hCell : DecodesTo e.memory.cells e.ip (.ofOpcode .call))
    (hStack : e.stack = (a : Int) :: rest) (ha : a < e.memory.size)
    (hRoom : e.callStack.length < e.maxStackDepth) : e.steps (n + 1) =
      ({ e.passed [.executed e.ip .call] with
          ip := a, stack := rest, callStack := (e.ip + 1) :: e.callStack } : Engine σ).steps n := by
  have hPops : Opcode.call.pops ≤ e.stack.length := hStack ▸ Nat.le_add_left 1 rest.length
  exact steps_of_run hFree hCell hPops
    (execute_call_room (e := e.carriesOut .call) _ none hStack ha hRoom) n

theorem steps_ret {calls : List Nat} (hCell : DecodesTo e.memory.cells e.ip (.ofOpcode .ret))
    (hCalls : e.callStack = a :: calls) : e.steps (n + 1) =
      ({ e.passed [.executed e.ip .ret] with ip := a, callStack := calls } : Engine σ).steps n :=
  steps_of_run hFree hCell (Nat.zero_le _) (execute_ret (e := e.carriesOut .ret) _ none hCalls) n

theorem steps_peekChunk {c : Chunk} (hCell : DecodesTo e.memory.cells e.ip (.ofOpcode .peekChunk))
    (hStack : e.stack = (a : Int) :: rest) (hRead : e.memory.cells[a]? = some c)
    (hBound : c < Word.bound) (hRoom : rest.length < e.maxStackDepth) : e.steps (n + 1) =
      ({ e.passed [.executed e.ip .peekChunk] with ip := e.ip + 1, stack := (c : Int) :: rest } :
        Engine σ).steps n := by
  have hPops : Opcode.peekChunk.pops ≤ e.stack.length := hStack ▸ Nat.le_add_left 1 rest.length
  exact steps_of_run hFree hCell hPops
    ((execute_peekChunk_word (e := e.carriesOut .peekChunk) _ none hStack hRead hBound).trans
      (run_pushLast_room (e := { e.carriesOut .peekChunk with stack := rest }) _ hRoom)) n

/-- The cell is there, so it is written. -/
theorem steps_pokeChunk {c : Chunk} (hCell : DecodesTo e.memory.cells e.ip (.ofOpcode .pokeChunk))
    (hStack : e.stack = (a : Int) :: (c : Int) :: rest) (ha : a < e.memory.size)
    (hBound : c < Word.bound) :
    e.steps (n + 1) = (e.wrote [(e.ip, .pokeChunk)] (e.ip + 1) rest a c).steps n := by
  have hPops : Opcode.pokeChunk.pops ≤ e.stack.length := hStack ▸ Nat.le_add_left 2 rest.length
  have hWrite : e.memory.write? a c = some ⟨e.memory.cells.setIfInBounds a c, true⟩ := if_pos ha
  have hRun := execute_pokeChunk (e := e.carriesOut .pokeChunk) e.ip none hStack ha hBound
  rw [show (e.carriesOut .pokeChunk).memory.write? a c = _ from hWrite] at hRun
  exact steps_of_run hFree hCell hPops hRun n

/-- A datum is built from its exponent, itself and the count. -/
theorem steps_buildChunk_data {v : Nat}
    (hCell : DecodesTo e.memory.cells e.ip (.ofOpcode .buildChunk)) (hv : v < primeCount)
    (hStack : e.stack = 1 :: (v : Int) :: (dataExponent : Int) :: rest)
    (hRoom : rest.length < e.maxStackDepth) : e.steps (n + 1) =
      ({ e.passed [.executed e.ip .buildChunk] with
          ip := e.ip + 1, stack := ((Record.data v).chunk : Int) :: rest } : Engine σ).steps n := by
  have hPops : Opcode.buildChunk.pops ≤ e.stack.length := hStack ▸ Nat.le_add_left 1 _
  have hBuilt : (execute e.ip .buildChunk none).run (e.carriesOut .buildChunk) =
      (pushLast ((Record.data v).chunk : Int)).run { e.carriesOut .buildChunk with stack := rest } :=
    execute_buildChunk e.ip none (payload_data hv) hv (by simp [dataExponent, exponentBound])
      (show 1 < indexBound by decide) hStack
  exact steps_of_run hFree hCell hPops
    (hBuilt.trans (run_pushLast_room (e := { e.carriesOut .buildChunk with stack := rest }) _
      hRoom)) n

theorem steps_factorize {c : Nat} {fs : List Factor}
    (hCell : DecodesTo e.memory.cells e.ip (.ofOpcode .factorize))
    (hFactors : factorize c = .ok (fs.map Factor.primePower))
    (hNumbered : ∀ f ∈ fs, f.index < primeCount) (hBound : c < Word.bound)
    (hStack : e.stack = (c : Int) :: rest)
    (hRoom : rest.length + (countedWords fs).length ≤ e.maxStackDepth) : e.steps (n + 1) =
      ({ e.passed [.executed e.ip .factorize] with
          ip := e.ip + 1, stack := (countedWords fs).reverse ++ rest } : Engine σ).steps n := by
  have hPops : Opcode.factorize.pops ≤ e.stack.length := hStack ▸ Nat.le_add_left 1 rest.length
  have hPushed := run_pushAll_room (e := { e.carriesOut .factorize with stack := rest })
    (countedWords fs) hRoom
  have hRun := execute_factorize (e := e.carriesOut .factorize) e.ip none hFactors hNumbered hBound
    hStack
  exact steps_of_run hFree hCell hPops (hRun.trans (run_bind_ok hPushed)) n

/-- The address is looked at only if it is gone to. -/
theorem steps_jumpIfZero (hCell : DecodesTo e.memory.cells e.ip (.ofOpcode .jumpIfZero))
    (hStack : e.stack = w :: (a : Int) :: rest) (ha : w = 0 → a < e.memory.size) :
    e.steps (n + 1) =
      ({ e.passed [.executed e.ip .jumpIfZero] with
          ip := if w = 0 then a else e.ip + 1, stack := rest } : Engine σ).steps n := by
  have hPops : Opcode.jumpIfZero.pops ≤ e.stack.length := hStack ▸ Nat.le_add_left 2 rest.length
  by_cases hZero : w = 0
  · subst hZero
    rw [if_pos rfl]
    exact steps_of_run hFree hCell hPops
      (execute_jumpIfZero_zero (e := e.carriesOut .jumpIfZero) _ none hStack (ha rfl)) n
  · rw [if_neg hZero]
    exact steps_of_run hFree hCell hPops
      (execute_jumpIfZero_nonzero (e := e.carriesOut .jumpIfZero) _ none hStack hZero) n

end Instructions

-- ---------------------------------------------------------------------------
-- Faults
-- ---------------------------------------------------------------------------

/-- A step whose instruction faults is the last one. -/
theorem steps_of_fault {op : Opcode} {operand : Option Nat} {e' : Engine σ} {fault : Fault}
    (hFree : e.phase.canStep = true)
    (hCell : DecodesTo e.memory.cells e.ip (.instruction op operand))
    (hPops : op.pops ≤ e.stack.length)
    (hRun : (execute e.ip op operand).run (e.carriesOut op) = .error fault e') :
    e.steps 1 = .ok ((e'.fail fault).snapshot none).2 := by
  obtain ⟨chunk, hChunk, hDecode⟩ := hCell
  have hNext : executeNext.run { e with phase := .running } = .error fault e' :=
    (executeNext_instruction (e := { e with phase := .running }) hChunk hDecode hPops).trans hRun
  have hAdvance : ({ e with phase := .running } : Engine σ).advance =
      (e'.fail fault).snapshot none := by
    rw [advance, hNext]
  have hStep : e.step = .ok ((e'.fail fault).snapshot none) :=
    step_eq_ok_iff.mpr ⟨hFree, hAdvance⟩
  rw [steps, hStep]
  rfl

-- ---------------------------------------------------------------------------
-- Transfers
-- ---------------------------------------------------------------------------

section Transfers

variable {target : Nat} (hFree : e.phase.canStep = true)
  (hPush : DecodesTo e.memory.cells e.ip (.push target))
  (hRoom : e.stack.length < e.maxStackDepth) (hTarget : target < e.memory.size)
include hFree hPush hRoom hTarget

theorem steps_push_jump (hJump : DecodesTo e.memory.cells (e.ip + 1) (.ofOpcode .jump)) :
    e.steps 2 = .ok { e.passed [.executed e.ip .push, .executed (e.ip + 1) .jump] with
      ip := target } := by
  let pushed : Engine σ := { e.passed [.executed e.ip .push] with
    ip := e.ip + 1, stack := (target : Int) :: e.stack }
  rw [steps_push hFree 1 hPush hRoom, steps_jump (e := pushed) rfl 0 hJump rfl hTarget]
  rfl

theorem steps_push_call (hCall : DecodesTo e.memory.cells (e.ip + 1) (.ofOpcode .call))
    (hCalls : e.callStack.length < e.maxStackDepth) :
    e.steps 2 = .ok { e.passed [.executed e.ip .push, .executed (e.ip + 1) .call] with
      ip := target, callStack := (e.ip + 2) :: e.callStack } := by
  let pushed : Engine σ := { e.passed [.executed e.ip .push] with
    ip := e.ip + 1, stack := (target : Int) :: e.stack }
  rw [steps_push hFree 1 hPush hRoom, steps_call (e := pushed) rfl 0 hCall rfl hTarget hCalls]
  rfl

theorem steps_push_branch (hSwap : DecodesTo e.memory.cells (e.ip + 1) (.ofOpcode .swap))
    (hJump : DecodesTo e.memory.cells (e.ip + 2) (.ofOpcode .jumpIfZero)) {c : Word}
    {rest : List Word} (hStack : e.stack = c :: rest) :
    e.steps 3 = .ok { e.passed [.executed e.ip .push, .executed (e.ip + 1) .swap,
        .executed (e.ip + 2) .jumpIfZero] with
      ip := if c = 0 then target else e.ip + 3, stack := rest } := by
  let pushed : Engine σ := { e.passed [.executed e.ip .push] with
    ip := e.ip + 1, stack := (target : Int) :: e.stack }
  -- the address goes under the condition, which is popped first
  let swapped : Engine σ := { e.passed [.executed e.ip .push, .executed (e.ip + 1) .swap] with
    ip := e.ip + 2, stack := c :: (target : Int) :: rest }
  have hPushed : pushed.stack = (target : Int) :: c :: rest := congrArg (_ :: ·) hStack
  have hSwapped : pushed.steps 2 = swapped.steps 1 := steps_swap rfl 1 hSwap hPushed
  rw [steps_push hFree 2 hPush hRoom, hSwapped,
    steps_jumpIfZero (e := swapped) rfl 0 hJump rfl fun _ => hTarget]
  rfl

end Transfers

end Engine

end FactorMachine
