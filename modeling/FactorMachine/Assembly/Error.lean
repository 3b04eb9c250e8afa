import FactorMachine.Chunk.Factor

/-!
# FactorMachine — what can go wrong in assembly

Failures of assembling a program, of patching it, and of planning where it may be rewritten.
-/

namespace FactorMachine

/-- Which of the slots that were selected for a program is meant. -/
inductive SlotRef where
  /-- The `i`-th selected slot, or the last one if there are not as many. -/
  | selected (i : Nat)
  /-- The slot that counts as the last one written before any was. -/
  | fallback
  deriving DecidableEq, Repr

def SlotRef.text : SlotRef → String
  | .selected i => s!"Selected({i})"
  | .fallback => "Default"

/-- Why an address cannot be written or jumped to. -/
inductive TargetProblem where
  | unbound (slot : SlotRef)
  /-- The first cell is never a slot. -/
  | startProtected
  | allProtected (programLength : Nat)
  | unpatchable (address : Nat)
  | notPush (address : Nat)
  | badJump (transfer target : Nat)
  | notTransfer (address : Nat)
  deriving DecidableEq, Repr

def TargetProblem.message : TargetProblem → String
  | .unbound slot => s!"{slot.text} is not bound"
  | .startProtected => "address 0 is protected"
  | .allProtected programLength =>
    s!"no unprotected address in a program of length {programLength}"
  | .unpatchable address => s!"cannot patch address {address}"
  | .notPush address => s!"address {address} is not a PUSH"
  | .badJump transfer target => s!"jump from {transfer} to {target}"
  | .notTransfer address => s!"address {address} is not a control transfer"

/-- Why no goal-seeker can be laid out. -/
inductive LayoutProblem where
  | noSlots
  | degenerateDraws
  | reachableMarker
  deriving DecidableEq, Repr

def LayoutProblem.message : LayoutProblem → String
  | .noSlots => "at least one modification slot is required"
  | .degenerateDraws => "attempt_modulus must be >= 2 and random_offset_bound >= 1"
  | .reachableMarker => "frame_marker must not be a reachable attempt value"

inductive AssemblyError where
  /-- Cells that should hold an address but do not. -/
  | unresolvedPlaceholder (addresses : List Nat)
  | invalidTarget (problem : TargetProblem)
  | undefinedLabel (name : String)
  | duplicateLabel (name : String)
  | invalidLayout (problem : LayoutProblem)
  | chunk (error : ChunkError)
  deriving DecidableEq, Repr

def AssemblyError.message : AssemblyError → String
  | .unresolvedPlaceholder addresses =>
    let listed := ", ".intercalate (addresses.map toString)
    s!"unresolved placeholders at addresses [{listed}]"
  | .invalidTarget problem => s!"invalid modification target: {problem.message}"
  | .undefinedLabel name => s!"label `{name}` is referenced but never defined"
  | .duplicateLabel name => s!"label `{name}` is defined twice"
  | .invalidLayout problem => s!"invalid assembler configuration: {problem.message}"
  | .chunk error => error.message

end FactorMachine
