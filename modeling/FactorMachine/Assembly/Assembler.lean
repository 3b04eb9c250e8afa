import FactorMachine.Assembly.Error
import FactorMachine.Chunk.Codec
import FactorMachine.Sorting

/-!
# FactorMachine — the assembler

A program is written as a list of statements. Each statement makes one cell, except that a
label makes none and names the address of the next cell. Control transfers are lists of
statements themselves: `jumpTo`, `callTo` and `branchIfFalse`.

A label may be pushed before it is defined, and a slot before it is known which slots are
selected. Either leaves a placeholder, a push of zero, which `Assembler.finish` replaces by a
push of the address. A program comes out only when no placeholder is left.
-/

namespace FactorMachine

inductive Statement where
  | raw (chunk : Chunk)
  | op (op : Opcode)
  | push (value : Nat)
  | data (value : Nat)
  | label (name : String)
  /-- Pushes the address of a label. -/
  | pushLabel (name : String)
  /-- Pushes the address of a slot. -/
  | pushSlot (slot : SlotRef)
  deriving DecidableEq, Repr

namespace Statement

/-- Statements for opcodes in a row. -/
def ops (opcodes : List Opcode) : List Statement := opcodes.map .op

/-- Goes on at a label. -/
def jumpTo (label : String) : List Statement := [.pushLabel label, .op .jump]

/-- Calls the routine at a label. -/
def callTo (label : String) : List Statement := [.pushLabel label, .op .call]

/-- Pops the condition and goes on at a label if it is zero. -/
def branchIfFalse (label : String) : List Statement :=
  [.pushLabel label, .op .swap, .op .jumpIfZero]

end Statement

/-- A program that is being assembled. -/
structure Assembler where
  code : Array Chunk
  /-- Each label with its address. -/
  labels : List (String × Nat)
  /-- The placeholders for labels, latest first. -/
  labelRefs : List (Nat × String)
  /-- The placeholders for slots, latest first. -/
  slotRefs : List (Nat × SlotRef)
  deriving DecidableEq, Repr

/-- A program without placeholders. -/
structure Assembled where
  program : List Chunk
  labels : List (String × Nat)
  /-- The addresses that held a placeholder, ascending. -/
  placeholders : List Nat
  deriving DecidableEq, Repr

/-- An assembling action: it may fail, and what it did before stays. -/
abbrev Assembly := EStateM AssemblyError Assembler

namespace Assembler

def empty : Assembler := ⟨#[], [], [], []⟩

/-- The address of the next cell. -/
def here (a : Assembler) : Nat := a.code.size

/-- The address of a label that is defined. -/
def addressOf (a : Assembler) (name : String) : Option Nat := a.labels.lookup name

/-- Appends a cell and returns its address. -/
def append (chunk : Chunk) : Assembly Nat := do
  let a ← get
  set { a with code := a.code.push chunk }
  pure a.here

/-- Appends the cell that an encoding gives. -/
def appendEncoded : Except ChunkError Chunk → Assembly Nat
  | .ok chunk => append chunk
  | .error e => throw (.chunk e)

/-- Names the address of the next cell. A name that is already defined moves there before
this is refused. -/
def define (name : String) : Assembly Nat := do
  let a ← get
  set { a with labels := (name, a.here) :: a.labels.filter (·.1 != name) }
  if (a.addressOf name).isSome then throw (.duplicateLabel name)
  pure a.here

/-- Appends a push of a label's address, or a placeholder for it. -/
def pushLabel (name : String) : Assembly Nat := do
  match (← get).addressOf name with
  | some address => appendEncoded (encodePush address)
  | none =>
    let at_ ← appendEncoded (encodePush 0)
    modify fun a => { a with labelRefs := (at_, name) :: a.labelRefs }
    pure at_

/-- Appends a placeholder for a slot's address. -/
def pushSlot (slot : SlotRef) : Assembly Nat := do
  let at_ ← appendEncoded (encodePush 0)
  modify fun a => { a with slotRefs := (at_, slot) :: a.slotRefs }
  pure at_

/-- Carries out one statement and returns the address it made or named. -/
def perform : Statement → Assembly Nat
  | .raw chunk => append chunk
  | .op op => appendEncoded (encodeOpcode op)
  | .push value => appendEncoded (encodePush value)
  | .data value => appendEncoded (encodeData value)
  | .label name => define name
  | .pushLabel name => pushLabel name
  | .pushSlot slot => pushSlot slot

/-- Carries out statements in order, up to the first that fails. -/
def performAll : List Statement → Assembly Unit
  | [] => pure ()
  | s :: rest => do
    let _ ← perform s
    performAll rest

end Assembler

-- ---------------------------------------------------------------------------
-- Resolving placeholders
-- ---------------------------------------------------------------------------

/-- The address that a slot reference stands for, given the addresses of the selected slots. -/
def SlotRef.resolve (selected : List Nat) : SlotRef → Option Nat
  | .selected i => selected[i]? <|> selected.getLast?
  | .fallback => selected.head?

/-- The address of a label that is referred to. -/
def resolveLabel (labels : List (String × Nat)) (name : String) : Except AssemblyError Nat :=
  match labels.lookup name with
  | some target => .ok target
  | none => .error (.undefinedLabel name)

/-- The address of a slot that is referred to. -/
def resolveSlot (selected : List Nat) (slot : SlotRef) : Except AssemblyError Nat :=
  match slot.resolve selected with
  | none => .error (.invalidTarget (.unbound slot))
  | some 0 => .error (.invalidTarget .startProtected)
  | some target => .ok target

/-- Replaces placeholders by pushes of the addresses that their references resolve to. -/
def fillPlaceholders {ρ : Type} (resolve : ρ → Except AssemblyError Nat) :
    List (Nat × ρ) → Array Chunk → Except AssemblyError (Array Chunk)
  | [], code => .ok code
  | (at_, reference) :: rest, code =>
    match resolve reference with
    | .error e => .error e
    | .ok target =>
      match encodePush target with
      | .error e => .error (.chunk e)
      | .ok chunk => fillPlaceholders resolve rest (code.setIfInBounds at_ chunk)

/-- Whether a cell is a push of something other than zero. -/
def isResolved (program : Array Chunk) (address : Nat) : Bool :=
  match program[address]? with
  | none => false
  | some chunk =>
    match decode chunk with
    | .ok (.instruction .push (some operand)) => operand != 0
    | _ => false

/-- Fails if any of the given cells is not a push of something other than zero. -/
def validatePlaceholders (program : Array Chunk) (addresses : List Nat) :
    Except AssemblyError Unit :=
  match addresses.filter fun address => !isResolved program address with
  | [] => .ok ()
  | unresolved => .error (.unresolvedPlaceholder unresolved)

/-- The program, once the selected slots are known. Labels are resolved before slots, each in
the order of their placeholders. -/
def Assembler.finish (a : Assembler) (selected : List Nat) : Except AssemblyError Assembled := do
  let labelRefs := a.labelRefs.reverse
  let slotRefs := a.slotRefs.reverse
  let code ← fillPlaceholders (resolveLabel a.labels) labelRefs a.code
  let code ← fillPlaceholders (resolveSlot selected) slotRefs code
  let placeholders :=
    stableSort (fun x y => x < y) (labelRefs.map (·.1) ++ slotRefs.map (·.1))
  validatePlaceholders code placeholders
  return ⟨code.toList, a.labels, placeholders⟩

/-- Assembles a whole program. -/
def assemble (statements : List Statement) (selected : List Nat) :
    Except AssemblyError Assembled :=
  match (Assembler.performAll statements).run .empty with
  | .ok _ a => a.finish selected
  | .error e _ => .error e

end FactorMachine
