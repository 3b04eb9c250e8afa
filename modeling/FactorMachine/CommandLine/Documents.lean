import FactorMachine.Config.Reading
import FactorMachine.Decimal.Range
import FactorMachine.Engine.Report
import FactorMachine.Json.Printer
import FactorMachine.Trainer.Session

/-!
# FactorMachine — summaries and reports as JSON

The shape of what `train` prints and of the file that it writes, which can also be read
back.
-/

namespace FactorMachine

/-- A double; what is no number is written as null. -/
def Json.double (x : Float) : Json :=
  match Decimal.text? x with
  | some numeral => .number numeral
  | none => .null

def ControllerSnapshot.toJson (s : ControllerSnapshot) : Json :=
  .record [
    ("difficulty_tier", .text s.tier.key),
    ("attempts_on_target", .natural s.attemptsOnTarget),
    ("quick_success_streak", .natural s.quickSuccessStreak),
    ("struggle_streak", .natural s.struggleStreak),
    ("current_target", .natural s.target),
    ("phase", .text s.phase.name)]

/-- The summary of a session that goes by the given identifier. -/
def TrainingSummary.toJson (s : TrainingSummary) (sessionId : String) : Json :=
  .record [
    ("session_id", .text sessionId),
    ("cycles", .natural s.cycles),
    ("attempts", .natural s.monitor.attempts),
    ("successes", .natural s.monitor.successes),
    ("success_rate", .double s.monitor.successRate),
    ("average_attempts", .double s.monitor.averageAttempts),
    ("trend", .double s.monitor.trend),
    ("restarts", .natural s.restarts),
    ("final_tier", .text s.controller.tier.key),
    ("controller", s.controller.toJson)]

/-- The name of an opcode in data. -/
def Opcode.key : Opcode → String
  | .push => "Push"
  | .add => "Add"
  | .print => "Print"
  | .halt => "Halt"
  | .jump => "Jump"
  | .pokeChunk => "PokeChunk"
  | .buildChunk => "BuildChunk"
  | .dup => "Dup"
  | .swap => "Swap"
  | .drop => "Drop"
  | .call => "Call"
  | .ret => "Return"
  | .peekChunk => "PeekChunk"
  | .factorize => "Factorize"
  | .getPrime => "GetPrime"
  | .getPrimeIndex => "GetPrimeIdx"
  | .compareEq => "CompareEq"
  | .jumpIfZero => "JumpIfZero"
  | .nop => "Nop"
  | .mod => "Mod"
  | .input => "Input"
  | .random => "Random"
  | .sub => "Sub"

def Opcode.ofKey? (key : String) : Option Opcode := Opcode.all.find? (·.key == key)

-- ---------------------------------------------------------------------------
-- Reports
-- ---------------------------------------------------------------------------

/-- The names of a report's fields. -/
def Report.fieldNames : List String :=
  ["instructions_executed", "faults", "fault_rate", "recent_diversity", "op_counts",
   "modifications", "repeated_sequences"]

def Report.toJson (r : Report) : Json :=
  let c := r.counts
  .record (Report.fieldNames.zip [
    .natural c.executed,
    .natural c.faults,
    .double r.faultRate,
    .double r.recentDiversity,
    .record (c.opcodes.map fun (name, n) => (name, .natural n)),
    .record (c.modifications.map fun (address, n) => (toString address, .natural n)),
    .array (c.repeated.map fun (ops, n) =>
      .record [
        ("ops", .array (ops.map fun op => .text op.key)),
        ("occurrences", .natural n)])])

/-- An entry of a table of counts. -/
def readCount {κ : Type} (readKey : Json.Key → Option κ) (member : Json.Key × Json) :
    Option (κ × Nat) := do
  return (← readKey member.1, ← Json.natural? countBound member.2)

/-- A table of counts with ascending keys; of several entries for a key the last one
counts. -/
def readCounts {κ : Type} [DecidableEq κ] (before : κ → κ → Bool)
    (readKey : Json.Key → Option κ) : Json → Option (List (κ × Nat))
  | .object members => do
    let entries ← members.mapM (readCount readKey)
    let latest := entries.foldl (fun kept e => e :: kept.filter (·.1 != e.1)) []
    return stableSort (fun a b => before a.1 b.1) latest
  | _ => none

/-- An address as a key: its digits without leading zeros, and none of them escaped. -/
def readAddress (key : Json.Key) : Option Nat := do
  let text ← key.text
  let address ← Text.natural? countBound text.toList
  if toString address = text ∧ !key.escaped then some address else none

def readRepeated (value : Json) : Option (List Opcode × Nat) := do
  match ← Json.fields? ["ops", "occurrences"] value with
  | [some (.array ops), some occurrences] =>
    let opcodes ← ops.mapM fun op => (Json.caseName? op).bind Opcode.ofKey?
    return (opcodes, ← Json.natural? countBound occurrences)
  | _ => none

/-- Whether a value is a number that a double can hold. -/
def Json.isDouble : Json → Bool
  | .number numeral => Decimal.isDouble numeral
  | _ => false

/-- What a report counts, read back. Its two rates must be doubles but are not kept. -/
def ReportCounts.ofJson? (value : Json) : Option ReportCounts := do
  match ← Json.fields? Report.fieldNames value with
  | [some executed, some faults, some faultRate, some recentDiversity, some opcodes,
     some modifications, some (.array repeated)] =>
    if !faultRate.isDouble || !recentDiversity.isDouble then none
    else return {
      executed := ← Json.natural? countBound executed
      faults := ← Json.natural? countBound faults
      opcodes := ← readCounts (fun a b => a < b) Json.Key.text opcodes
      modifications := ← readCounts (fun a b => a < b) readAddress modifications
      repeated := ← repeated.mapM readRepeated }
  | _ => none

/-- What the report in a file counts. -/
def ReportCounts.load? (content : ByteArray) : Option ReportCounts :=
  (Json.ofBytes? content.data.toList).bind ReportCounts.ofJson?

end FactorMachine
