import FactorMachine.Engine.Report
import FactorMachine.Proofs.Engine.History
import FactorMachine.Proofs.Sorting
import FactorMachine.Proofs.Tally
import Mathlib.Data.String.Basic

/-!
# FactorMachine — what a history counts

A history does two things with an event: it counts it, and it puts it in a window from which the
oldest event may have to go. The counts are never taken from the window. So once events are
forgotten, the two tell of different things: the window of the latest events, the counts of all that
there ever were, and the latest opcodes only of those executed instructions that are still in the
window.

A report passes the counts on. It names the opcodes, and no two of them have the same name.

## Results

* `Counted.record`, `counted_recordAll` — an event more, and all events in a row.
* `recentOpcodes_eq`  — the latest opcodes, from the events that are kept.
* `Counted.told`      — a report tells what its history has counted.
* `kept_and_counted`  — a history beside the row of events that it was told.
-/

namespace FactorMachine

/-- The address that an event has written to. -/
def Event.poked? : Event → Option Nat
  | .poke address => some address
  | _ => none

/-- A report that counts these events, with every name and every address in its place. -/
structure ReportCounts.Tells (r : ReportCounts) (events : List Event) : Prop where
  executed : r.executed = (events.filterMap Event.opcode?).length
  faults : r.faults = events.count .fault
  opcodes : ∀ name n, (name, n) ∈ r.opcodes ↔ ∃ op : Opcode, op.name = name ∧
    n = (events.filterMap Event.opcode?).count op ∧ 0 < n
  names : r.opcodes.Pairwise fun a b => a.1 < b.1
  modifications : ∀ address n, (address, n) ∈ r.modifications ↔
    n = (events.filterMap Event.poked?).count address ∧ 0 < n
  addresses : r.modifications.Pairwise fun a b => a.1 < b.1

/-- An opcode is told by its name. -/
theorem Opcode.ofName?_name (op : Opcode) : ofName? op.name = some op := by
  cases op <;> decide

theorem Opcode.name_injective : Function.Injective Opcode.name := by
  intro a b hSame
  have hFound := congrArg ofName? hSame
  rw [ofName?_name, ofName?_name] at hFound
  exact Option.some.inj hFound

namespace History

/-- A history that has counted these events. -/
structure Counted (h : History) (events : List Event) : Prop where
  executed : h.executed = (events.filterMap Event.opcode?).length
  faults : h.faults = events.count .fault
  opcodes : h.opcodes.Counts (events.filterMap Event.opcode?)
  pokes : h.pokes.Counts (events.filterMap Event.poked?)
  total : (h.opcodes.map Prod.snd).sum = h.executed

variable {h : History} {events : List Event}

theorem counted_empty (limit : Nat) : (empty limit).Counted [] :=
  ⟨rfl, rfl, Tally.counts_nil, Tally.counts_nil, rfl⟩

/-- An event more is counted, whether or not another one is forgotten for it. -/
theorem Counted.record (hCounted : h.Counted events) (event : Event) :
    (h.record event).Counted (events ++ [event]) := by
  obtain ⟨hExecuted, hFaults, hOpcodes, hPokes, hTotal⟩ := hCounted
  have hOps : (events ++ [event]).filterMap Event.opcode? =
      events.filterMap Event.opcode? ++ event.opcode?.toList := by
    rw [List.filterMap_append]
    cases event <;> rfl
  have hAddresses : (events ++ [event]).filterMap Event.poked? =
      events.filterMap Event.poked? ++ event.poked?.toList := by
    rw [List.filterMap_append]
    cases event <;> rfl
  refine ⟨?_, ?_, ?_, ?_, ?_⟩
  · rw [hOps, List.length_append, ← hExecuted]
    cases event <;> rfl
  · rw [List.count_append, ← hFaults]
    cases event <;> rfl
  · rw [hOps]
    cases event with
    | executed _ op => exact hOpcodes.bump op
    | _ => exact (List.append_nil _).symm ▸ hOpcodes
  · rw [hAddresses]
    cases event with
    | poke address => exact hPokes.bump address
    | _ => exact (List.append_nil _).symm ▸ hPokes
  · cases event with
    | executed _ op => exact (Tally.sum_bump op h.opcodes).trans (congrArg (· + 1) hTotal)
    | _ => exact hTotal

theorem Counted.recordAll (hCounted : h.Counted events) (more : List Event) :
    (h.recordAll more).Counted (events ++ more) := by
  induction more generalizing h events with
  | nil => rwa [List.append_nil]
  | cons event more ih =>
    rw [List.append_cons]
    exact ih (hCounted.record event)

theorem counted_recordAll (limit : Nat) (events : List Event) :
    ((empty limit).recordAll events).Counted events := by
  have hCounted := (counted_empty limit).recordAll events
  rwa [List.nil_append] at hCounted

/-- The latest opcodes are the last ones of the executed instructions that are kept. -/
theorem recentOpcodes_eq (h : History) (n : Nat) :
    h.recentOpcodes n = (h.events.filterMap Event.opcode?).rtake n := by
  rw [recentOpcodes, List.filterMap_reverse, List.rtake_eq_reverse_take_reverse]

/-- A report tells what its history has counted. -/
theorem Counted.told (hCounted : h.Counted events) : (Report.ofHistory h).counts.Tells events where
  executed := hCounted.executed
  faults := hCounted.faults
  opcodes name n := by
    have hEntries : (name, n) ∈ (Report.ofHistory h).counts.opcodes ↔
        (name, n) ∈ h.opcodes.map fun entry => (entry.1.name, entry.2) :=
      (perm_stableSort _ _).mem_iff
    rw [hEntries, List.mem_map]
    constructor
    · rintro ⟨⟨op, m⟩, hMem, hEntry⟩
      cases hEntry
      exact ⟨op, rfl, hCounted.opcodes.mem_iff.mp hMem⟩
    · rintro ⟨op, rfl, hMet⟩
      exact ⟨(op, n), hCounted.opcodes.mem_iff.mpr hMet, rfl⟩
  names := by
    refine strictly_sorted_stableSort (fun _ _ => decide_eq_true_iff) ?_
    have hNames : (h.opcodes.map fun entry => (entry.1.name, entry.2)).map Prod.fst =
        (h.opcodes.map Prod.fst).map Opcode.name := by
      rw [List.map_map, List.map_map]
      rfl
    rw [hNames]
    exact hCounted.opcodes.distinct.map Opcode.name_injective
  modifications address n := by
    rw [← hCounted.pokes.mem_iff]
    exact (perm_stableSort _ _).mem_iff
  addresses :=
    strictly_sorted_stableSort (fun _ _ => decide_eq_true_iff) hCounted.pokes.distinct

/-- **A history beside the row of events that it was told.** It keeps the last events in order, as
many as its limit allows, where a limit of zero counts as one. It has counted all of them, those
that it does not keep any more included: the executed instructions, the faults, and how often each
opcode was executed and each address written. The counts of the opcodes come to the executed
instructions, and a report tells the same counts. The latest opcodes are the last of those that are
still kept, oldest first. -/
theorem kept_and_counted (limit : Nat) (events : List Event) :
    let h := (empty limit).recordAll events
    let kept := events.rtake (max limit 1)
    h.events = kept ∧ h.executed = (events.filterMap Event.opcode?).length ∧
      h.faults = events.count .fault ∧
      h.opcodes.Counts (events.filterMap Event.opcode?) ∧
      h.pokes.Counts (events.filterMap Event.poked?) ∧
      (h.opcodes.map Prod.snd).sum = h.executed ∧ (Report.ofHistory h).counts.Tells events ∧
      ∀ n, h.recentOpcodes n = (kept.filterMap Event.opcode?).rtake n := by
  have hCounted := counted_recordAll limit events
  have hKept := latest_recordAll limit events
  intro h kept
  refine ⟨hKept, hCounted.executed, hCounted.faults, hCounted.opcodes, hCounted.pokes,
    hCounted.total, hCounted.told, ?_⟩
  intro n
  rw [recentOpcodes_eq, hKept]

/-- A limit of zero keeps one event, and counts them all. -/
example : let h := (empty 0).recordAll [.executed 0 .nop, .poke 3, .executed 1 .halt, .halted]
    h.events = [.halted] ∧ h.recentOpcodes 5 = [] ∧ h.executed = 2 ∧ h.pokes.count 3 = 1 := by
  decide

end History

end FactorMachine
