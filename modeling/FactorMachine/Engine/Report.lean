import FactorMachine.Engine.History
import FactorMachine.Ratio
import FactorMachine.Sorting

/-!
# FactorMachine — reports on a history

A report sums up a history: how many instructions and faults there were, which opcodes were
executed and which addresses written, how varied the latest instructions were, and which
sequences of five opcodes came back more than three times.
-/

namespace FactorMachine

/-- How many of the latest instructions the diversity is taken over. -/
def diversityWindow : Nat := 100

/-- How many of the latest instructions are searched for repeated sequences. -/
def patternWindow : Nat := 1000

/-- The length of a repeated sequence. -/
def patternLength : Nat := 5

/-- A sequence must occur more often than this to be reported. -/
def patternRepeats : Nat := 3

/-- Each run of `n` consecutive elements, in order of its start. -/
def runsOf {α : Type} (n : Nat) : List α → List (List α)
  | [] => []
  | a :: rest =>
    let run := (a :: rest).take n
    if run.length = n then run :: runsOf n rest else []

/-- Whether one list of opcodes comes before another, by their numbers. -/
def opcodesBefore : List Opcode → List Opcode → Bool
  | [], [] => false
  | [], _ :: _ => true
  | _ :: _, [] => false
  | a :: as, b :: bs =>
    a.index < b.index || (a.index == b.index && opcodesBefore as bs)

/-- Whether a repeated sequence is reported before another: the more frequent one is, and of
equally frequent ones the one with lower opcodes. -/
def repeatBefore (a b : List Opcode × Nat) : Bool :=
  b.2 < a.2 || (a.2 == b.2 && opcodesBefore a.1 b.1)

/-- The repeated sequences of a list of opcodes with their numbers of occurrences;
occurrences may overlap. -/
def repeatedSequences (ops : List Opcode) : List (List Opcode × Nat) :=
  stableSort repeatBefore
    ((Tally.ofList (runsOf patternLength ops)).filter fun entry => patternRepeats < entry.2)

/-- What a report counts. -/
structure ReportCounts where
  executed : Nat
  faults : Nat
  /-- The names of the executed opcodes in alphabetical order, each with its count. -/
  opcodes : List (String × Nat)
  /-- The written addresses in ascending order, each with its count. -/
  modifications : List (Nat × Nat)
  repeated : List (List Opcode × Nat)
  deriving DecidableEq, Repr

structure Report where
  counts : ReportCounts
  /-- How many instructions the diversity is taken over. -/
  recent : Nat
  /-- How many different opcodes are among them. -/
  recentDistinct : Nat
  deriving DecidableEq, Repr

namespace Report

def ofHistory (h : History) : Report :=
  let recent := h.recentOpcodes diversityWindow
  { counts := {
      executed := h.executed
      faults := h.faults
      opcodes := stableSort (fun a b => a.1 < b.1) (h.opcodes.map fun (op, n) => (op.name, n))
      modifications := stableSort (fun a b => a.1 < b.1) h.pokes
      repeated := repeatedSequences (h.recentOpcodes patternWindow) }
    recent := recent.length
    recentDistinct := recent.eraseDups.length }

/-- Faults per executed instruction. -/
def faultRate (r : Report) : Float := ratio r.counts.faults r.counts.executed

/-- Different opcodes per instruction, among the latest instructions. -/
def recentDiversity (r : Report) : Float := ratio r.recentDistinct r.recent

end Report

end FactorMachine
