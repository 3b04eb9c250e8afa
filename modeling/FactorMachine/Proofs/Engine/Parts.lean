import FactorMachine.Engine.Run
import FactorMachine.Proofs.Outcome

/-!
# FactorMachine — the parts of an instruction

Every instruction goes the same way. It works on its operands, which may fault, and then it has
a single effect on the rest of the engine. `Operation.OnOperands` says how such work is put
together from its parts, and `Effect` lists the effects. What holds of each part and of each
effect holds of all instructions, so a program that rewrites itself needs no look at its code.

The same is said of a fetch: `Engine.fetch` is what the cell at the instruction pointer asks for.

## Results

* `instruction_execute` — each opcode is work on operands that ends in an effect of the opcode.
* `executeNext_eq`      — what an engine does next, by what it fetches.
-/

namespace FactorMachine

namespace Operation

variable {σ : Type}

-- ---------------------------------------------------------------------------
-- Work on operands
-- ---------------------------------------------------------------------------

/-- The top word, which stays where it is. -/
def top (address : Nat) (op : Opcode) : Operation σ Word := do
  match (← get).stack with
  | [] => throw (.stackUnderflow address op)
  | v :: _ => pure v

/-- Exchanges the two top words. -/
def swapTop (address : Nat) (op : Opcode) : Operation σ Unit := do
  let (a, b) ← popPair address op
  modify fun e => { e with stack := a :: b :: e.stack }

/-- Goes on only if there are so many words on the stack. -/
def requireWords (n : Nat) (fault : Fault) : Operation σ Unit := do
  if (← get).stack.length < n then throw fault

/-- The chunk at an address. -/
def readCell (address : Nat) : Operation σ Chunk := do
  match (← get).memory.read? address with
  | some chunk => pure chunk
  | none => throw (.invalidAddress address)

-- How each of the parts comes out.

theorem push_run (v : Word) (e : Engine σ) : (push v).run e =
    if e.maxStackDepth ≤ e.stack.length then .error (.stackOverflow e.maxStackDepth) e
    else .ok () { e with stack := v :: e.stack } := by
  rw [push, run_bind_ok (EStateM.run_get e)]
  dsimp only
  split <;> rfl

theorem pop_run (address : Nat) (op : Opcode) (e : Engine σ) : (pop address op).run e =
    match e.stack with
    | [] => .error (.stackUnderflow address op) e
    | v :: rest => .ok v { e with stack := rest } := by
  rw [pop, run_bind_ok (EStateM.run_get e)]
  cases e.stack <;> rfl

theorem top_run (address : Nat) (op : Opcode) (e : Engine σ) : (top address op).run e =
    match e.stack with
    | [] => .error (.stackUnderflow address op) e
    | v :: _ => .ok v e := by
  rw [top, run_bind_ok (EStateM.run_get e)]
  cases e.stack <;> rfl

theorem swapTop_run (address : Nat) (op : Opcode) (e : Engine σ) : (swapTop address op).run e =
    match e.stack with
    | [] => .error (.stackUnderflow address op) e
    | [_] => .error (.stackUnderflow address op) { e with stack := [] }
    | b :: a :: rest => .ok () { e with stack := a :: b :: rest } := by
  obtain ⟨memory, stack, callStack, ip, phase, fault, printed, random, depth, history⟩ := e
  match stack with
  | [] | [_] | _ :: _ :: _ => rfl

theorem requireWords_run (n : Nat) (fault : Fault) (e : Engine σ) : (requireWords n fault).run e =
    if e.stack.length < n then .error fault e else .ok () e := by
  rw [requireWords, run_bind_ok (EStateM.run_get e)]
  split <;> rfl

theorem toAddress_run (v : Word) (e : Engine σ) : (toAddress v).run e =
    match v.toNatBelow? e.memory.size with
    | some a => .ok a e
    | none => .error (.invalidAddress v) e := by
  rw [toAddress, run_bind_ok (EStateM.run_get e)]
  cases v.toNatBelow? e.memory.size <;> rfl

theorem readCell_run (address : Nat) (e : Engine σ) : (readCell address).run e =
    match e.memory.read? address with
    | some chunk => .ok chunk e
    | none => .error (.invalidAddress address) e := by
  rw [readCell, run_bind_ok (EStateM.run_get e)]
  cases e.memory.read? address <;> rfl

variable [RandomSource σ]

/-- Work that touches nothing but the operand stack and the random source. Of the rest of the
engine it reads only the program. -/
inductive OnOperands : {α : Type} → Operation σ α → Prop
  | done {α : Type} (a : α) : OnOperands (pure a : Operation σ α)
  | fault {α : Type} (fault : Fault) : OnOperands (throw fault : Operation σ α)
  | andThen {α β : Type} {x : Operation σ α} {f : α → Operation σ β} :
      OnOperands x → (∀ a, OnOperands (f a)) → OnOperands (x >>= f)
  | push (v : Word) : OnOperands (push v)
  | pop (address : Nat) (op : Opcode) : OnOperands (pop address op)
  | top (address : Nat) (op : Opcode) : OnOperands (top address op)
  | swapTop (address : Nat) (op : Opcode) : OnOperands (swapTop address op)
  | requireWords (n : Nat) (fault : Fault) : OnOperands (requireWords n fault)
  | toAddress (v : Word) : OnOperands (toAddress v)
  | readCell (address : Nat) : OnOperands (readCell address)
  | drawBelow (bound : Nat) : OnOperands (drawBelow bound)

namespace OnOperands

theorem popPair (address : Nat) (op : Opcode) :
    OnOperands (popPair address op : Operation σ (Word × Word)) :=
  .andThen (.pop address op) fun _ => .andThen (.pop address op) fun _ => .done _

theorem toOperand (op : Opcode) (limit : Nat) (v : Word) :
    OnOperands (toOperand op limit v : Operation σ Nat) := by
  unfold Operation.toOperand
  split
  · exact .done _
  · exact .fault _

theorem pushResult (op : Opcode) (v : Int) :
    OnOperands (pushResult op v : Operation σ Unit) := by
  unfold Operation.pushResult
  split
  · exact .push _
  · exact .fault _

theorem pushChunk (op : Opcode) (chunk : Chunk) :
    OnOperands (pushChunk op chunk : Operation σ Unit) := by
  unfold Operation.pushChunk
  split
  · exact .push _
  · exact .fault _

theorem popFactors (address : Nat) (op : Opcode) (count : Nat) :
    OnOperands (popFactors address op count : Operation σ (List Factor)) := by
  induction count with
  | zero => exact .done _
  | succ count ih =>
    refine .andThen (.pop address op) fun index => .andThen (.pop address op) fun exponent => ?_
    refine .andThen (.toOperand op indexBound index) fun _ => ?_
    exact .andThen (.toOperand op exponentBound exponent) fun _ => .andThen ih fun _ => .done _

theorem pushFactors (factors : List (Nat × Nat)) :
    OnOperands (pushFactors factors : Operation σ Unit) := by
  induction factors with
  | nil => exact .done _
  | cons factor rest ih =>
    obtain ⟨p, exponent⟩ := factor
    unfold Operation.pushFactors
    split
    · exact .andThen (.push _) fun _ => .andThen (.push _) fun _ => ih
    · exact .andThen (.fault _) fun _ => .andThen (.push _) fun _ => ih

end OnOperands

end Operation

-- ---------------------------------------------------------------------------
-- Effects
-- ---------------------------------------------------------------------------

/-- Whether an instruction records an event of its own when it is carried out. -/
def Opcode.hasEvent : Opcode → Bool
  | .print | .input | .halt | .pokeChunk => true
  | _ => false

/-- What an instruction does to the rest of the engine, once it has its operands. -/
inductive Effect where
  /-- Nothing. -/
  | proceed
  | print (v : Word)
  /-- Waits for input. -/
  | await
  | halt
  | jump (target : Word)
  | call (target : Word)
  | ret
  | poke (target value : Word)

namespace Effect

open Operation

variable {σ : Type}

/-- Carries out an effect, and gives the word that is printed. -/
def perform : Effect → Operation σ (Option Word)
  | proceed => pure none
  | print v => do
    modify fun e => { e with printed := v :: e.printed }
    record (.output v)
    return some v
  | await => do
    modify fun e => { e with phase := .awaitingInput }
    record .inputRequested
    return none
  | halt => do
    modify (·.halt)
    return none
  | jump target => do
    jumpTo (← toAddress target)
    return none
  | call target => do
    let target ← toAddress target
    let e ← get
    if e.maxStackDepth ≤ e.callStack.length then throw (.stackOverflow e.maxStackDepth)
    set { e with callStack := e.ip :: e.callStack, ip := target }
    return none
  | ret => do
    let e ← get
    match e.callStack with
    | [] => throw .emptyCallStack
    | target :: rest => set { e with callStack := rest, ip := target }
    return none
  | poke target value => do
    let target ← toAddress target
    let chunk ← toOperand .pokeChunk Word.bound value
    modify fun e => { e with memory := (e.memory.write? target chunk).getD e.memory }
    record (.poke target)
    return none

/-- The effects that an opcode may end in. -/
def Suits (op : Opcode) : Effect → Prop
  | print _ => op = .print
  | await => op = .input
  | halt => op = .halt
  | poke _ _ => op = .pokeChunk
  | proceed | jump _ | call _ | ret => op.hasEvent = false

/-- How carrying out an effect comes out. -/
def outcome : Effect → Engine σ → EStateM.Result Fault (Engine σ) (Option Word)
  | proceed, e => .ok none e
  | print v, e => .ok (some v) ({ e with printed := v :: e.printed }.record (.output v))
  | await, e => .ok none ({ e with phase := .awaitingInput }.record .inputRequested)
  | halt, e => .ok none e.halt
  | jump target, e =>
    match target.toNatBelow? e.memory.size with
    | some a => .ok none { e with ip := a }
    | none => .error (.invalidAddress target) e
  | call target, e =>
    match target.toNatBelow? e.memory.size with
    | some a =>
      if e.maxStackDepth ≤ e.callStack.length then .error (.stackOverflow e.maxStackDepth) e
      else .ok none { e with callStack := e.ip :: e.callStack, ip := a }
    | none => .error (.invalidAddress target) e
  | ret, e =>
    match e.callStack with
    | [] => .error .emptyCallStack e
    | a :: rest => .ok none { e with callStack := rest, ip := a }
  | poke target value, e =>
    match target.toNatBelow? e.memory.size, value.toNatBelow? Word.bound with
    | some a, some chunk =>
      .ok none
        ({ e with memory := (e.memory.write? a chunk).getD e.memory }.record (.poke a))
    | some _, none => .error (.invalidOperand .pokeChunk value) e
    | none, _ => .error (.invalidAddress target) e

theorem run_perform (effect : Effect) (e : Engine σ) :
    effect.perform.run e = effect.outcome e := by
  cases effect with
  | jump target =>
    simp only [perform, outcome, toAddress, EStateM.run_bind, EStateM.run_get]
    cases target.toNatBelow? e.memory.size <;> rfl
  | call target =>
    simp only [perform, outcome, toAddress, EStateM.run_bind, EStateM.run_get]
    cases target.toNatBelow? e.memory.size with
    | none => rfl
    | some a =>
      dsimp only [EStateM.run_pure]
      split <;> rfl
  | ret =>
    simp only [perform, outcome, EStateM.run_bind, EStateM.run_get]
    cases e.callStack <;> rfl
  | poke target value =>
    simp only [perform, outcome, toAddress, toOperand, EStateM.run_bind, EStateM.run_get]
    cases target.toNatBelow? e.memory.size with
    | none => rfl
    | some a => cases value.toNatBelow? Word.bound <;> rfl
  | _ => rfl

end Effect

-- ---------------------------------------------------------------------------
-- Instructions
-- ---------------------------------------------------------------------------

namespace Operation

variable {σ : Type} [RandomSource σ]

/-- Work on operands that ends in an effect of the opcode. -/
inductive Instruction (op : Opcode) : Operation σ (Option Word) → Prop
  | effect (effect : Effect) : effect.Suits op → Instruction op effect.perform
  | work {α : Type} {x : Operation σ α} {f : α → Operation σ (Option Word)} :
      OnOperands x → (∀ a, Instruction op (f a)) → Instruction op (x >>= f)

/-- Work on operands without an effect. -/
theorem Instruction.quiet {op : Opcode} {α : Type} {x : Operation σ α} (h : OnOperands x)
    (hSuits : Effect.proceed.Suits op) : Instruction op (x >>= fun _ => pure none) :=
  .work h fun _ => .effect .proceed hSuits

theorem execute_dup_eq (address : Nat) (operand : Option Nat) :
    (execute address .dup operand : Operation σ (Option Word)) =
      (top address .dup >>= fun v => push v >>= fun _ => pure none) := by
  refine funext fun e => ?_
  obtain ⟨memory, stack, callStack, ip, phase, fault, printed, random, depth, history⟩ := e
  cases stack <;> rfl

theorem execute_swap_eq (address : Nat) (operand : Option Nat) :
    (execute address .swap operand : Operation σ (Option Word)) =
      (swapTop address .swap >>= fun _ => pure none) := by
  rw [swapTop, bind_assoc]
  rfl

theorem execute_peekChunk_eq (address : Nat) (operand : Option Nat) :
    (execute address .peekChunk operand : Operation σ (Option Word)) =
      (pop address .peekChunk >>= fun v => toAddress v >>= fun target => readCell target >>=
        fun chunk => pushChunk .peekChunk chunk >>= fun _ => pure none) := by
  refine congrArg (pop address .peekChunk >>= ·) (funext fun v => ?_)
  refine congrArg (toAddress v >>= ·) (funext fun target => funext fun e => ?_)
  change EStateM.run _ e = EStateM.run _ e
  simp only [readCell, EStateM.run_bind, EStateM.run_get]
  cases e.memory.read? target <;> rfl

theorem execute_buildChunk_eq (address : Nat) (operand : Option Nat) :
    (execute address .buildChunk operand : Operation σ (Option Word)) =
      (pop address .buildChunk >>= fun count => toOperand .buildChunk indexBound count >>=
        fun pairs => requireWords (wordsFor pairs) (.stackUnderflow address .buildChunk) >>=
          fun _ => popFactors address .buildChunk pairs >>= fun factors =>
            match encodeFactors factors with
            | .ok chunk => pushChunk .buildChunk chunk >>= fun _ => pure none
            | .error error => throw (.codec error) >>= fun _ : Unit => pure none) := by
  refine congrArg (pop address .buildChunk >>= ·) (funext fun count => ?_)
  refine congrArg (toOperand .buildChunk indexBound count >>= ·) (funext fun pairs => ?_)
  refine funext fun e => ?_
  change EStateM.run _ e = EStateM.run _ e
  simp only [requireWords, EStateM.run_bind, EStateM.run_get]
  split <;> rfl

open Effect in
/-- **Each opcode is work on operands that ends in an effect of the opcode.** -/
theorem instruction_execute (address : Nat) (op : Opcode) (operand : Option Nat) :
    Instruction op (execute address op operand : Operation σ (Option Word)) := by
  cases op with
  | push =>
    cases operand with
    | some n => exact .quiet (.push _) rfl
    | none => exact .quiet (.fault _) rfl
  | add =>
    exact .work (.popPair address .add) fun (a, b) => .quiet (.pushResult _ _) rfl
  | sub =>
    exact .work (.popPair address .sub) fun (a, b) => .quiet (.pushResult _ _) rfl
  | mod =>
    refine .work (.popPair address .mod) fun (a, b) => ?_
    dsimp only
    split
    -- what follows the first check is the same whether it passes or not
    on_goal 1 => refine .work (.fault _) fun _ => ?_
    all_goals
      split
      · exact .work (.fault _) fun _ => .quiet (.push _) rfl
      · exact .quiet (.push _) rfl
  | compareEq =>
    exact .work (.popPair address .compareEq) fun (a, b) => .quiet (.push _) rfl
  | dup =>
    rw [execute_dup_eq]
    exact .work (.top address .dup) fun _ => .quiet (.push _) rfl
  | swap =>
    rw [execute_swap_eq]
    exact .quiet (.swapTop address .swap) rfl
  | drop => exact .quiet (.andThen (.pop address .drop) fun _ => .done _) rfl
  | print =>
    exact .work (.pop address .print) fun v => .effect (.print v) rfl
  | input => exact .effect .await rfl
  | halt => exact .effect .halt rfl
  | nop => exact .effect .proceed rfl
  | jump =>
    exact .work (.pop address .jump) fun v => .effect (.jump v) rfl
  | jumpIfZero =>
    refine .work (.pop address .jumpIfZero) fun c => .work (.pop address .jumpIfZero) fun v => ?_
    split
    · exact .effect (.jump v) rfl
    · exact .effect .proceed rfl
  | call =>
    exact .work (.pop address .call) fun v => .effect (.call v) rfl
  | ret => exact .effect .ret rfl
  | pokeChunk =>
    exact .work (.pop address .pokeChunk) fun target => .work (.pop address .pokeChunk) fun v =>
      .effect (.poke target v) rfl
  | peekChunk =>
    rw [execute_peekChunk_eq]
    exact .work (.pop address .peekChunk) fun v => .work (.toAddress v) fun target =>
      .work (.readCell target) fun chunk => .quiet (.pushChunk _ chunk) rfl
  | buildChunk =>
    rw [execute_buildChunk_eq]
    refine .work (.pop address .buildChunk) fun count => ?_
    refine .work (.toOperand .buildChunk indexBound count) fun pairs => ?_
    refine .work (.requireWords (wordsFor pairs) _) fun _ => ?_
    refine .work (.popFactors address .buildChunk pairs) fun factors => ?_
    split
    · exact .quiet (.pushChunk _ _) rfl
    · exact .quiet (.fault _) rfl
  | factorize =>
    refine .work (.pop address .factorize) fun value => ?_
    refine .work (.toOperand .factorize Word.bound value) fun n => ?_
    split
    · exact .work (.push _) fun _ => .quiet (.pushFactors _) rfl
    · exact .quiet (.fault _) rfl
  | getPrime =>
    refine .work (.pop address .getPrime) fun value => ?_
    refine .work (.toOperand .getPrime indexBound value) fun index => ?_
    split
    · exact .quiet (.push _) rfl
    · exact .quiet (.fault _) rfl
  | getPrimeIndex =>
    refine .work (.pop address .getPrimeIndex) fun value => ?_
    refine .work (.toOperand .getPrimeIndex indexBound value) fun prime => ?_
    split
    · exact .quiet (.push _) rfl
    · exact .quiet (.fault _) rfl
  | random =>
    refine .work (.pop address .random) fun bound => ?_
    dsimp only
    split
    · exact .work (.fault _) fun _ => .work (.drawBelow _) fun _ => .quiet (.push _) rfl
    · exact .work (.drawBelow _) fun _ => .quiet (.push _) rfl

end Operation

-- ---------------------------------------------------------------------------
-- Fetching
-- ---------------------------------------------------------------------------

/-- What an engine finds at its instruction pointer. -/
inductive Fetch where
  /-- The end of the program. -/
  | missing
  /-- An empty chunk, which is passed over. -/
  | degenerate
  | faulty (fault : Fault)
  | instruction (op : Opcode) (operand : Option Nat)

variable {σ : Type}

/-- Fetches the next instruction, if its operands are there. -/
def Engine.fetch (e : Engine σ) : Fetch :=
  match e.memory.read? e.ip with
  | none => .missing
  | some chunk =>
    match decode chunk with
    | .error error => .faulty (.undecodable e.ip error)
    | .ok .degenerate => .degenerate
    | .ok (.instruction op operand) =>
      if e.stack.length < op.pops then .faulty (.stackUnderflow e.ip op)
      else .instruction op operand
    | .ok record => .faulty (.notAnInstruction e.ip record)

/-- An instruction in the cell is fetched, if its operands are there. -/
theorem Engine.fetch_of_decode {e : Engine σ} {chunk : Chunk} {op : Opcode} {operand : Option Nat}
    (hCell : e.memory.read? e.ip = some chunk)
    (hDecode : decode chunk = .ok (.instruction op operand)) (hPops : op.pops ≤ e.stack.length) :
    e.fetch = .instruction op operand := by
  rw [Engine.fetch, hCell]
  dsimp only
  rw [hDecode]
  exact if_neg (Nat.not_lt.mpr hPops)

/-- An instruction was fetched from a cell that holds it, and its operands are there. -/
theorem Engine.decode_of_fetch {e : Engine σ} {op : Opcode} {operand : Option Nat}
    (h : e.fetch = .instruction op operand) :
    ∃ chunk, e.memory.read? e.ip = some chunk ∧
      decode chunk = .ok (.instruction op operand) ∧ op.pops ≤ e.stack.length := by
  unfold Engine.fetch at h
  split at h
  · cases h
  · rename_i chunk hCell
    refine ⟨chunk, hCell, ?_⟩
    split at h
    · cases h
    · cases h
    · rename_i hDecode
      split at h
      · cases h
      · rename_i hPops
        cases h
        exact ⟨hDecode, Nat.le_of_not_lt hPops⟩
    · cases h

/-- Something was fetched from a cell of the program. -/
theorem Engine.ip_lt_of_fetch {e : Engine σ} (h : e.fetch ≠ .missing) :
    e.ip < e.memory.size := by
  unfold Engine.fetch at h
  cases hRead : e.memory.read? e.ip with
  | none =>
    rw [hRead] at h
    exact absurd rfl h
  | some chunk => exact (Array.getElem?_eq_some_iff.mp hRead).1

/-- What an engine does next, by what it fetches. -/
theorem executeNext_eq [RandomSource σ] (e : Engine σ) : executeNext.run e =
    match e.fetch with
    | .missing => .ok none e.halt
    | .degenerate => .ok none { e with ip := e.ip + 1 }
    | .faulty fault => .error fault e
    | .instruction op operand =>
      (execute e.ip op operand).run { e.record (.executed e.ip op) with ip := e.ip + 1 } := by
  rw [executeNext, run_bind_ok (EStateM.run_get e), Engine.fetch]
  cases hRead : e.memory.read? e.ip with
  | none => rfl
  | some chunk =>
    cases hDecode : decode chunk with
    | error error => simp only [hDecode]; rfl
    | ok record =>
      cases record with
      | instruction op operand =>
        simp only [hDecode]
        split <;> rfl
      | _ => simp only [hDecode]; rfl

end FactorMachine
