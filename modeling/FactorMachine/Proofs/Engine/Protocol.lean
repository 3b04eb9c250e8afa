import FactorMachine.Proofs.Engine.Parts
import Mathlib.Data.List.Chain

/-!
# FactorMachine — the order of events

What an engine records comes in groups, one for each instruction: the instruction itself, and then
its output, the address it wrote to, or the request for a word with the word that was supplied. A
program that stops adds one ending, which is a halt or a fault. A step may have nothing to record,
and an engine that waits has recorded a group but for its word.

`Event.Recorded` says this of everything recorded since the program was loaded, together with the
phase. The rest of the module reads off what it means for neighbouring events.

## Results

* `Recorded.step`, `Recorded.resume`    — what one more step adds, after a word or without.
* `Recorded.exists_complete`            — all that is recorded begins a complete record.
* `Recorded.begun`                      — which events stand next to each other.
* `Recorded.getLast?_eq_iff`            — the last event says whether the engine waits.
-/

namespace FactorMachine

namespace Event

-- ---------------------------------------------------------------------------
-- Groups and endings
-- ---------------------------------------------------------------------------

/-- The events of one instruction after which the program goes on. -/
inductive Group : List Event → Prop
  | plain {op : Opcode} (address : Nat) : op.hasEvent = false → Group [executed address op]
  | print (address : Nat) (v : Word) : Group [executed address .print, output v]
  | poke (address target : Nat) : Group [executed address .pokeChunk, poke target]
  | input (address : Nat) (v : Word) :
      Group [executed address .input, inputRequested, inputSupplied v]

/-- The last events of a program, by the phase that it stops in. -/
inductive Ending : Phase → List Event → Prop
  | ranOff : Ending .halted [halted]
  | halted (address : Nat) : Ending .halted [executed address .halt, halted]
  | unfetched : Ending .errored [fault]
  | faulted (address : Nat) (op : Opcode) : Ending .errored [executed address op, fault]

/-- Groups in a row. -/
def Groups (events : List Event) : Prop :=
  ∃ groups : List (List Event), (∀ group ∈ groups, Group group) ∧ events = groups.flatten

/-- Groups in a row, with at most one ending. -/
def Complete (events : List Event) : Prop :=
  Groups events ∨
    ∃ before phase ending, Groups before ∧ Ending phase ending ∧ events = before ++ ending

/-- The events of one step, by the phase that it leaves. -/
inductive Burst : Phase → List Event → Prop
  | skipped : Burst .running []
  | plain {op : Opcode} (address : Nat) :
      op.hasEvent = false → Burst .running [executed address op]
  | print (address : Nat) (v : Word) : Burst .running [executed address .print, output v]
  | poke (address target : Nat) : Burst .running [executed address .pokeChunk, poke target]
  | input (address : Nat) : Burst .awaitingInput [executed address .input, inputRequested]
  | ending {phase : Phase} {events : List Event} : Ending phase events → Burst phase events

/-- What is recorded of a program up to some phase. -/
inductive Recorded : Phase → List Event → Prop
  | loaded : Recorded .ready []
  | burst {past events : List Event} {phase : Phase} :
      Groups past → Burst phase events → Recorded phase (past ++ events)

theorem Groups.nil : Groups [] := ⟨[], by simp, rfl⟩

theorem Group.groups {events : List Event} (h : Group events) : Groups events :=
  ⟨[events], by simpa using h, by simp⟩

theorem Groups.append {xs ys : List Event} (h : Groups xs) (h' : Groups ys) :
    Groups (xs ++ ys) := by
  obtain ⟨gs, hgs, rfl⟩ := h
  obtain ⟨hs, hhs, rfl⟩ := h'
  exact ⟨gs ++ hs, List.forall_mem_append.mpr ⟨hgs, hhs⟩, List.flatten_append.symm⟩

variable {past events : List Event} {phase phase' : Phase}

/-- A step after which the program runs on has recorded whole groups. -/
theorem Burst.groups (h : Burst .running events) : Groups events := by
  cases h with
  | skipped => exact .nil
  | plain address hPlain => exact (Group.plain address hPlain).groups
  | print address v => exact (Group.print address v).groups
  | poke address target => exact (Group.poke address target).groups
  | ending hEnding => cases hEnding

/-- A wait is all of a group but for the word. -/
theorem Burst.groups_supplied (h : Burst .awaitingInput events) (v : Word) :
    Groups (events ++ [inputSupplied v]) := by
  cases h with
  | input address => exact (Group.input address v).groups
  | ending hEnding => cases hEnding

/-- A program that is free to run has recorded whole groups. -/
theorem Recorded.groups (h : Recorded phase past) (hPhase : phase.canStep = true) :
    Groups past := by
  cases h with
  | loaded => exact .nil
  | burst hPast hBurst =>
    cases phase with
    | ready => cases hBurst with | ending hEnding => cases hEnding
    | running => exact hPast.append hBurst.groups
    | awaitingInput | halted | errored => cases hPhase

/-- One more step. -/
theorem Recorded.step (h : Recorded phase past) (hPhase : phase.canStep = true)
    (hBurst : Burst phase' events) : Recorded phase' (past ++ events) :=
  .burst (h.groups hPhase) hBurst

/-- A word and one more step. -/
theorem Recorded.resume (h : Recorded .awaitingInput past) (v : Word)
    (hBurst : Burst phase' events) : Recorded phase' (past ++ inputSupplied v :: events) := by
  cases h with
  | @burst earlier wait _ hEarlier hWait =>
    have hGroups : Groups ((earlier ++ wait) ++ [inputSupplied v]) := by
      rw [List.append_assoc]
      exact hEarlier.append (hWait.groups_supplied v)
    have hRecorded := Recorded.burst hGroups hBurst
    rwa [List.append_assoc, List.singleton_append] at hRecorded

/-- Everything that is recorded begins a complete record. Only at a wait is something missing. -/
theorem Recorded.exists_complete (h : Recorded phase events) :
    ∃ complete, Complete complete ∧ events <+: complete := by
  cases h with
  | loaded => exact ⟨[], .inl .nil, List.nil_prefix⟩
  | @burst past events _ hPast hBurst =>
    cases hBurst with
    | ending hEnding => exact ⟨_, .inr ⟨past, _, _, hPast, hEnding, rfl⟩, List.prefix_rfl⟩
    | input address =>
      have hWait : Burst .awaitingInput [executed address .input, inputRequested] := .input address
      refine ⟨_, .inl (hPast.append (hWait.groups_supplied 0)), ?_⟩
      exact (List.prefix_append_right_inj past).mpr (List.prefix_append _ _)
    | skipped => exact ⟨_, .inl (hPast.append Burst.skipped.groups), List.prefix_rfl⟩
    | plain address hPlain =>
      exact ⟨_, .inl (hPast.append (Burst.plain address hPlain).groups), List.prefix_rfl⟩
    | print address v =>
      exact ⟨_, .inl (hPast.append (Burst.print address v).groups), List.prefix_rfl⟩
    | poke address target =>
      exact ⟨_, .inl (hPast.append (Burst.poke address target).groups), List.prefix_rfl⟩

-- ---------------------------------------------------------------------------
-- Neighbours
-- ---------------------------------------------------------------------------

/-- Whether an event may stand right after another one. A word is supplied right after it was
asked for, and nowhere else, and nothing comes after an end. -/
def Follows (a b : Event) : Prop :=
  (a = inputRequested ↔ ∃ v, b = inputSupplied v) ∧ a ≠ halted ∧ a ≠ fault

/-- Whether an event can be the first one of a group or an ending. -/
def opens : Event → Bool
  | executed _ _ | halted | fault => true
  | output _ | poke _ | inputRequested | inputSupplied _ => false

/-- Whether an event can be the last one of a group. -/
def closes : Event → Bool
  | executed _ _ | output _ | poke _ | inputSupplied _ => true
  | inputRequested | halted | fault => false

theorem follows_of_closes {a b : Event} (ha : a.closes = true) (hb : b.opens = true) :
    Follows a b := by
  have hWord : ¬ ∃ v, b = inputSupplied v := by
    rintro ⟨v, rfl⟩
    cases hb
  refine ⟨iff_of_false ?_ hWord, ?_, ?_⟩
  all_goals
    rintro rfl
    cases ha

/-- Events that begin like a group or an ending, and follow one another. -/
structure Begun (events : List Event) : Prop where
  chain : events.IsChain Follows
  first : ∀ a ∈ events.head?, a.opens = true

/-- Events that end like a group as well. -/
structure Rounded (events : List Event) : Prop extends Begun events where
  last : ∀ a ∈ events.getLast?, a.closes = true

theorem Rounded.begun_append {xs ys : List Event} (h : Rounded xs) (h' : Begun ys) :
    Begun (xs ++ ys) where
  chain := h.chain.append h'.chain fun _ hx _ hy =>
    follows_of_closes (h.last _ hx) (h'.first _ hy)
  first := by
    intro a ha
    cases xs with
    | nil => exact h'.first a ha
    | cons x xs => exact h.first a ha

theorem Rounded.append {xs ys : List Event} (h : Rounded xs) (h' : Rounded ys) :
    Rounded (xs ++ ys) where
  toBegun := h.begun_append h'.toBegun
  last := by
    intro a ha
    cases ys with
    | nil => exact h.last a (by simpa using ha)
    | cons y ys => exact h'.last a (by simpa using ha)

theorem Group.rounded (h : Group events) : Rounded events := by
  cases h <;> refine ⟨⟨?_, ?_⟩, ?_⟩ <;> simp [Follows, opens, closes]

theorem Groups.rounded (h : Groups events) : Rounded events := by
  obtain ⟨groups, hGroups, rfl⟩ := h
  induction groups with
  | nil => exact ⟨⟨.nil, by simp⟩, by simp⟩
  | cons group groups ih =>
    obtain ⟨hFirst, hRest⟩ := List.forall_mem_cons.mp hGroups
    exact hFirst.rounded.append (ih hRest)

theorem Burst.begun (h : Burst phase events) : Begun events := by
  cases h with
  | ending hEnding => cases hEnding <;> constructor <;> simp [Follows, opens]
  | _ => constructor <;> simp [Follows, opens]

theorem Recorded.begun (h : Recorded phase events) : Begun events := by
  cases h with
  | loaded => exact ⟨.nil, by simp⟩
  | burst hPast hBurst => exact hPast.rounded.begun_append hBurst.begun

/-- The last event is a request exactly while the engine waits. -/
theorem Recorded.getLast?_eq_iff (h : Recorded phase events) :
    events.getLast? = some inputRequested ↔ phase = .awaitingInput := by
  cases h with
  | loaded => simp
  | @burst past events _ hPast hBurst =>
    cases hBurst with
    | ending hEnding => cases hEnding <;> simp
    | skipped =>
      -- nothing was added, and no group ends in a request
      refine iff_of_false (fun hLast => ?_) (by simp)
      have hCloses := hPast.rounded.last _ (by simpa using hLast)
      cases hCloses
    | _ => simp

end Event

end FactorMachine
