import FactorMachine.Engine.State

/-!
# FactorMachine — executing one instruction

`execute` says what each opcode does. It works on the engine as it is after the fetch, with
the instruction pointer already past the instruction. A fault keeps what was done up to it:
operands that were popped stay popped, and results that were pushed stay pushed.

`executeNext` reads the cell at the instruction pointer. A missing cell ends the program, an
empty chunk is passed over, and an instruction that finds too few operands faults before
anything moves.
-/

namespace FactorMachine

/-- A part of an instruction: it changes the engine and may fault on the way. -/
abbrev Operation (σ : Type) := EStateM Fault (Engine σ)

namespace Operation

variable {σ : Type}

/-- Pushes a word onto the operand stack, if there is room. -/
def push (v : Word) : Operation σ Unit := do
  let e ← get
  if e.maxStackDepth ≤ e.stack.length then throw (.stackOverflow e.maxStackDepth)
  set { e with stack := v :: e.stack }

/-- Pushes the value of an arithmetic operation, if it is a word. -/
def pushResult (op : Opcode) (v : Int) : Operation σ Unit :=
  match Word.ofInt? v with
  | some v => push v
  | none => throw (.arithmeticOverflow op)

/-- Pushes a chunk, if it is a word. -/
def pushChunk (op : Opcode) (chunk : Chunk) : Operation σ Unit :=
  if chunk < Word.bound then push chunk else throw (.invalidOperand op Word.greatest)

/-- Pops the top word, on behalf of the instruction at `address`. -/
def pop (address : Nat) (op : Opcode) : Operation σ Word := do
  let e ← get
  match e.stack with
  | [] => throw (.stackUnderflow address op)
  | v :: rest =>
    set { e with stack := rest }
    pure v

/-- Pops the right operand and then the left one; the left one comes first. -/
def popPair (address : Nat) (op : Opcode) : Operation σ (Word × Word) := do
  let right ← pop address op
  let left ← pop address op
  pure (left, right)

/-- A word as an address of the program. -/
def toAddress (v : Word) : Operation σ Nat := do
  match v.toNatBelow? (← get).memory.size with
  | some address => pure address
  | none => throw (.invalidAddress v)

/-- A word as an operand below `limit`. -/
def toOperand (op : Opcode) (limit : Nat) (v : Word) : Operation σ Nat :=
  match v.toNatBelow? limit with
  | some n => pure n
  | none => throw (.invalidOperand op v)

/-- Continues at another address. -/
def jumpTo (address : Nat) : Operation σ Unit := modify fun e => { e with ip := address }

def record (event : Event) : Operation σ Unit := modify (·.record event)

/-- How many words so many factors take. The doubling stops at the greatest index. -/
def wordsFor (count : Nat) : Nat := min (2 * count) (indexBound - 1)

/-- Pops `count` factors, each with its index on top of its exponent. -/
def popFactors (address : Nat) (op : Opcode) : (count : Nat) → Operation σ (List Factor)
  | 0 => pure []
  | count + 1 => do
    let index ← pop address op
    let exponent ← pop address op
    let index ← toOperand op indexBound index
    let exponent ← toOperand op exponentBound exponent
    return ⟨index, exponent⟩ :: (← popFactors address op count)

/-- Pushes each prime's index and then its exponent. -/
def pushFactors : List (Nat × Nat) → Operation σ Unit
  | [] => pure ()
  | (p, exponent) :: rest => do
    match indexOf p with
    | .ok index => push index
    | .error e => throw (.prime e)
    push exponent
    pushFactors rest

/-- A number below `bound` from the engine's source. -/
def drawBelow [RandomSource σ] (bound : Nat) : Operation σ Nat := do
  let e ← get
  let (n, random) := RandomSource.draw 128 bound e.random
  set { e with random }
  pure n

end Operation

open Operation

variable {σ : Type} [RandomSource σ]

/-- Carries out the instruction at `address`, and returns the word that it prints. -/
def execute (address : Nat) (op : Opcode) (operand : Option Nat) :
    Operation σ (Option Word) := do
  match op with
  | .push =>
    match operand with
    | some n => push n
    | none => throw (.invalidOperand op (-1))
  | .add =>
    let (a, b) ← popPair address op
    pushResult op (a + b)
  | .sub =>
    let (a, b) ← popPair address op
    pushResult op (a - b)
  | .mod =>
    let (a, b) ← popPair address op
    if b = 0 then throw .divisionByZero
    -- The quotient of the least word by -1 is no word, and then neither is the remainder.
    if a = -(Word.bound : Int) ∧ b = -1 then throw (.arithmeticOverflow op)
    push (a % b)
  | .compareEq =>
    let (a, b) ← popPair address op
    push (if a = b then 1 else 0)
  | .dup =>
    match (← get).stack with
    | [] => throw (.stackUnderflow address op)
    | v :: _ => push v
  | .swap =>
    let (a, b) ← popPair address op
    modify fun e => { e with stack := a :: b :: e.stack }
  | .drop => discard (pop address op)
  | .print =>
    let v ← pop address op
    modify fun e => { e with printed := v :: e.printed }
    record (.output v)
    return some v
  | .input =>
    modify fun e => { e with phase := .awaitingInput }
    record .inputRequested
  | .halt => modify (·.halt)
  | .nop => pure ()
  | .jump => jumpTo (← toAddress (← pop address op))
  | .jumpIfZero =>
    let condition ← pop address op
    let target ← pop address op
    if condition = 0 then jumpTo (← toAddress target)
  | .call =>
    let target ← toAddress (← pop address op)
    let e ← get
    if e.maxStackDepth ≤ e.callStack.length then throw (.stackOverflow e.maxStackDepth)
    set { e with callStack := e.ip :: e.callStack, ip := target }
  | .ret =>
    let e ← get
    match e.callStack with
    | [] => throw .emptyCallStack
    | target :: rest => set { e with callStack := rest, ip := target }
  | .pokeChunk =>
    let target ← pop address op
    let value ← pop address op
    let target ← toAddress target
    let chunk ← toOperand op Word.bound value
    modify fun e => { e with memory := (e.memory.write? target chunk).getD e.memory }
    record (.poke target)
  | .peekChunk =>
    let target ← toAddress (← pop address op)
    match (← get).memory.read? target with
    | some chunk => pushChunk op chunk
    | none => throw (.invalidAddress target)
  | .buildChunk =>
    let count ← pop address op
    let pairs ← toOperand op indexBound count
    if (← get).stack.length < wordsFor pairs then throw (.stackUnderflow address op)
    match encodeFactors (← popFactors address op pairs) with
    | .ok chunk => pushChunk op chunk
    | .error e => throw (.codec e)
  | .factorize =>
    let value ← pop address op
    let n ← toOperand op Word.bound value
    match FactorMachine.factorize n with
    | .ok factors =>
      push factors.length
      pushFactors factors
    | .error e => throw (.prime e)
  | .getPrime =>
    let value ← pop address op
    match primeAt (← toOperand op indexBound value) with
    | .ok p => push p
    | .error e => throw (.prime e)
  | .getPrimeIndex =>
    let value ← pop address op
    match indexOf (← toOperand op indexBound value) with
    | .ok index => push index
    | .error e => throw (.prime e)
  | .random =>
    let bound ← pop address op
    if bound ≤ 0 then throw (.invalidOperand op bound)
    push (← drawBelow bound.toNat)
  return none

/-- Fetches and carries out the next instruction, and returns the word that it prints. -/
def executeNext : Operation σ (Option Word) := do
  let e ← get
  match e.memory.read? e.ip with
  | none =>
    set e.halt
    return none
  | some chunk =>
    match decode chunk with
    | .error error => throw (.undecodable e.ip error)
    | .ok .degenerate =>
      set { e with ip := e.ip + 1 }
      return none
    | .ok (.instruction op operand) =>
      if e.stack.length < op.pops then throw (.stackUnderflow e.ip op)
      set { e.record (.executed e.ip op) with ip := e.ip + 1 }
      execute e.ip op operand
    | .ok record => throw (.notAnInstruction e.ip record)

end FactorMachine
