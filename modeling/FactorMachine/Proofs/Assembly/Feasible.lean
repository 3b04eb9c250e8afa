import FactorMachine.Proofs.Assembly.SinglePass

/-!
# FactorMachine — statements that can be assembled

Assembling goes through its statements one by one and may fail at any of them, or in the end for
an address that is missing or too large. None of this depends on how far it has got: whether it
fails can be seen from the statements. They are `Feasible` if their numbers can be encoded, their
labels are distinct, every label that is referred to is defined, and the program is short enough for
the address of every cell to be pushed.

The first pass then goes through whatever slots will be selected, and the second one for every
selection that has an address for each slot.

## Results

* `Feasible.exists_performAll` — the first pass succeeds.
* `Feasible.exists_finish`     — the second pass succeeds.
-/

namespace FactorMachine

namespace Statement

/-- A statement by itself can be encoded: its number is not too large, and a push has one. -/
def Encodable : Statement → Prop
  | .op opcode => opcode ≠ .push
  | .push value | .data value => value < primeCount
  | _ => True

/-- The label that a statement defines. -/
def label? : Statement → Option String
  | .label name => some name
  | _ => none

theorem label?_eq_some_iff {s : Statement} {name : String} :
    s.label? = some name ↔ s = .label name := by
  cases s <;> simp [label?]

end Statement

/-- The labels that are defined, in order. -/
def labelNames (ss : List Statement) : List String := ss.filterMap Statement.label?

theorem mem_labelNames {ss : List Statement} {name : String} :
    name ∈ labelNames ss ↔ .label name ∈ ss := by
  simp [labelNames, Statement.label?_eq_some_iff]

@[simp] theorem labelNames_append (xs ys : List Statement) :
    labelNames (xs ++ ys) = labelNames xs ++ labelNames ys := List.filterMap_append

/-- Nothing stands in the way of assembling but the selection of slots. -/
structure Feasible (ss : List Statement) : Prop where
  encodable : ∀ s ∈ ss, s.Encodable
  distinct : (labelNames ss).Nodup
  defined : ∀ name, .pushLabel name ∈ ss → name ∈ labelNames ss
  length : (cellStatements ss).length < primeCount

/-- A label stands at a cell or at the end. -/
theorem LabelAt.le {ss : List Statement} {name : String} {address : Nat}
    (h : LabelAt ss name address) : address ≤ (cellStatements ss).length := by
  obtain ⟨before, s, after, rfl, -, rfl⟩ := h
  simp

namespace Assembler

variable {done rest ss : List Statement} {a : Assembler} {s : Statement}

theorem exists_appendEncoded {encoded : Except ChunkError Chunk} (h : ∃ c, encoded = .ok c)
    (a : Assembler) : ∃ address b, (appendEncoded encoded).run a = .ok address b := by
  obtain ⟨c, rfl⟩ := h
  exact ⟨_, _, rfl⟩

/-- A statement of a feasible program can be carried out when it comes to it. -/
theorem exists_perform (h : Feasible (done ++ s :: rest)) (hRecorded : a.Recorded done) :
    ∃ address b, (perform s).run a = .ok address b := by
  have hEncodable : s.Encodable := h.encodable s (by simp)
  have hZero : ∃ c, encodePush 0 = .ok c := exists_encodePush_iff.mpr (by decide)
  cases s with
  | raw chunk => exact ⟨_, _, rfl⟩
  | op op => exact exists_appendEncoded (exists_encodeOpcode_iff.mpr hEncodable) a
  | push value => exact exists_appendEncoded (exists_encodePush_iff.mpr hEncodable) a
  | data value =>
    have hEncode : encodeData value = .ok (Record.data value).chunk :=
      encode_eq_ok_iff.mpr ⟨hEncodable, rfl⟩
    exact exists_appendEncoded ⟨_, hEncode⟩ a
  | label name =>
    -- the name is not among those before it
    have hFresh : .label name ∉ done := by
      intro hMem
      have hDistinct := h.distinct
      rw [labelNames_append] at hDistinct
      have hApart := (List.nodup_append.mp hDistinct).2.2
      exact hApart name (mem_labelNames.mpr hMem) name (mem_labelNames.mpr (by simp)) rfl
    have hNone := hRecorded.addressOf_eq_none.mpr hFresh
    rw [perform, run_define, hNone]
    exact ⟨_, _, rfl⟩
  | pushLabel name =>
    have hPush : (perform (.pushLabel name)).run a = _ := run_bind_ok (EStateM.run_get a)
    rw [hPush]
    cases hAddress : a.addressOf name with
    | some address =>
      have hLe := ((hRecorded.labels name address).mp hAddress).le
      have hLength := h.length
      rw [cellStatements_append, List.length_append] at hLength
      exact exists_appendEncoded (exists_encodePush_iff.mpr (by omega)) a
    | none =>
      obtain ⟨at_, a', hAppend⟩ := exists_appendEncoded hZero a
      exact ⟨_, _, run_bind_ok hAppend⟩
  | pushSlot slot =>
    obtain ⟨at_, a', hAppend⟩ := exists_appendEncoded hZero a
    exact ⟨_, _, run_bind_ok hAppend⟩

theorem exists_performAll_from (rest : List Statement) : ∀ {done : List Statement} {a : Assembler},
    Feasible (done ++ rest) → a.Prefix done → a.Recorded done →
      ∃ b, (performAll rest).run a = .ok () b := by
  induction rest with
  | nil => exact fun {done a} _ _ _ => ⟨a, rfl⟩
  | cons s rest ih =>
    intro done a h hPrefix hRecorded
    obtain ⟨address, a', hFirst⟩ := exists_perform h hRecorded
    have hSplit : done ++ s :: rest = done ++ [s] ++ rest := by simp
    obtain ⟨b, hRest⟩ := ih (hSplit ▸ h) (hPrefix.perform hFirst)
      (hRecorded.perform hPrefix.size hFirst)
    exact ⟨b, (run_bind_ok hFirst).trans hRest⟩

end Assembler

namespace Feasible

variable {ss : List Statement} {a : Assembler} {selected : List Nat}

/-- The first pass succeeds. -/
theorem exists_performAll (h : Feasible ss) :
    ∃ a, (Assembler.performAll ss).run .empty = .ok () a := by
  have hAll : Feasible ([] ++ ss) := h
  exact Assembler.exists_performAll_from ss hAll Assembler.prefix_empty Assembler.recorded_empty

/-- The second pass succeeds if every slot has an address. -/
theorem exists_finish (h : Feasible ss) (hRun : (Assembler.performAll ss).run .empty = .ok () a)
    (hSlots : ∀ slot, .pushSlot slot ∈ ss →
      ∃ address, slot.resolve selected = some address ∧ address ≠ 0 ∧ address < primeCount) :
    ∃ out, a.finish selected = .ok out := by
  have hRecorded := Assembler.performAll_recorded hRun
  refine (hRecorded.exists_finish_iff (Assembler.performAll_prefix hRun)).mpr ⟨?_, hSlots⟩
  intro name hMem
  obtain ⟨address, hLabel⟩ := labelAt_iff_mem.mpr (mem_labelNames.mp (h.defined name hMem))
  exact ⟨address, hLabel, hLabel.le.trans_lt h.length⟩

end Feasible

end FactorMachine
