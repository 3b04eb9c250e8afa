import FactorMachine.Proofs.Seeker.Layout
import FactorMachine.Proofs.Seeker.Planning
import FactorMachine.Proofs.Seeker.Rotation

/-!
# FactorMachine — a goal-seeker that was built

Building assembles the statements and chooses the slots. What comes out has a `Layout`: its
program holds the picture of the first contents, with the target as the attempt and no
operation in every slot. This is so whatever the bank of slots has become in the meantime, as
the slots are chosen from the addresses that are not locked.

## Results

* `build_parts`        — what a program was built from.
* `stateAfter_build`   — what a request makes of the builder, also where it fails.
* `build_spec`, `exists_layout` — the layout of a goal-seeker that was built.
* `Layout.Describes.lookup_success` — where its success path begins.
-/

namespace FactorMachine

-- ---------------------------------------------------------------------------
-- The parts of building
-- ---------------------------------------------------------------------------

namespace SeekerBuilder

/-- What a program was built from. -/
theorem build_parts {b b' : SeekerBuilder} {target streak : Nat} {seeker : GoalSeeker}
    (h : (build target streak).run b = .ok seeker b') :
    ∃ assembler selected bank assembled cells,
      (Assembler.performAll (Seeker.statements b.config b.protocol target
        (b.bank.selectedCount streak))).run .empty = .ok () assembler ∧
      (SlotBank.plan streak assembler.here (b.lockedAddresses assembler.here)).run b.bank =
        .ok selected bank ∧
      assembler.finish selected = .ok assembled ∧ cellLayout assembled.labels = .ok cells ∧
      seeker = ⟨assembled.program, assembled.labels, assembled.placeholders, selected, cells,
        b.config.frameMarker, b.config.slotCount⟩ ∧
      b' = { b with bank } := by
  unfold build at h
  obtain ⟨b₁, b₂, hGet, h⟩ := run_bind_eq_ok h
  cases hGet
  dsimp only at h
  split at h
  · cases h
  · rename_i assembler hAssemble
    split at h
    · cases h
    · rename_i selected bank hPlan
      obtain ⟨done, b₃, hSet, h⟩ := run_bind_eq_ok h
      cases hSet
      split at h
      · cases h
      · rename_i assembled hFinish
        split at h
        · cases h
        · rename_i cells hCells
          cases h
          exact ⟨assembler, selected, bank, assembled, cells, hAssemble, hPlan, hFinish, hCells,
            rfl, rfl⟩

/-- A program is built if none of its parts fails. -/
theorem build_eq {b : SeekerBuilder} {target streak : Nat} {assembler : Assembler}
    {selected : List Nat} {bank : SlotBank} {assembled : Assembled} {cells : CellLayout}
    (hAssemble : (Assembler.performAll (Seeker.statements b.config b.protocol target
      (b.bank.selectedCount streak))).run .empty = .ok () assembler)
    (hPlan : (SlotBank.plan streak assembler.here (b.lockedAddresses assembler.here)).run b.bank =
      .ok selected bank)
    (hFinish : assembler.finish selected = .ok assembled)
    (hCells : cellLayout assembled.labels = .ok cells) :
    (build target streak).run b = .ok ⟨assembled.program, assembled.labels,
      assembled.placeholders, selected, cells, b.config.frameMarker, b.config.slotCount⟩
        { b with bank } := by
  have hRun : (build target streak).run b = _ := run_bind_ok (EStateM.run_get b)
  rw [hRun]
  dsimp only
  rw [hAssemble]
  dsimp only
  rw [hPlan]
  dsimp only
  rw [run_bind_ok (EStateM.run_set _ _), hFinish]
  dsimp only
  rw [hCells]
  rfl

/-- A builder keeps its configuration, and there is nothing wrong with it. -/
theorem start_spec {config : SeekerConfig} {protocol : ProtocolConfig} {b : SeekerBuilder}
    (h : start config protocol = .ok b) :
    (b.config = config ∧ b.protocol = protocol) ∧ layoutProblem? b.config = none := by
  unfold start at h
  split at h
  · cases h
  · rename_i hPossible
    split at h
    · cases h
    · cases h
      exact ⟨⟨rfl, rfl⟩, hPossible⟩

/-- A builder after a request is the one before it, or the bank has planned. -/
theorem stateAfter_build (b : SeekerBuilder) (target streak : Nat) :
    stateAfter ((build target streak).run b) = b ∨ ∃ assembler,
      (Assembler.performAll (Seeker.statements b.config b.protocol target
        (b.bank.selectedCount streak))).run .empty = .ok () assembler ∧
      stateAfter ((build target streak).run b) =
        { b with bank := stateAfter ((SlotBank.plan streak assembler.here
          (b.lockedAddresses assembler.here)).run b.bank) } := by
  have hRun : (build target streak).run b = _ := run_bind_ok (EStateM.run_get b)
  rw [hRun]
  dsimp only
  cases (Assembler.performAll (Seeker.statements b.config b.protocol target
      (b.bank.selectedCount streak))).run .empty with
  | error e a => exact .inl rfl
  | ok _ assembler =>
    refine .inr ⟨assembler, rfl, ?_⟩
    dsimp only
    -- a failure after planning leaves the bank as it was planned
    cases (SlotBank.plan streak assembler.here (b.lockedAddresses assembler.here)).run b.bank with
    | error e bank => rfl
    | ok selected bank =>
      dsimp only
      cases assembler.finish selected with
      | error e => rfl
      | ok assembled =>
        dsimp only
        cases cellLayout assembled.labels with
        | error e => rfl
        | ok cells => rfl

/-- A failure changes no more than the bank. -/
theorem build_error {b b' : SeekerBuilder} {target streak : Nat} {e : AssemblyError}
    (h : (build target streak).run b = .error e b') :
    b'.config = b.config ∧ b'.protocol = b.protocol := by
  have hAfter : stateAfter ((build target streak).run b) = b' := by
    rw [h]
    rfl
  rcases stateAfter_build b target streak with hSame | ⟨assembler, -, hPlanned⟩
  · rw [← hAfter, hSame]
    exact ⟨rfl, rfl⟩
  · rw [← hAfter, hPlanned]
    exact ⟨rfl, rfl⟩

/-- The addresses that are locked are those beside the slots. -/
theorem locksOthers_lockedAddresses (b : SeekerBuilder) (programLength : Nat) :
    LocksOthers b.config.slotCount programLength (b.lockedAddresses programLength) := by
  intro a hInside
  simp only [lockedAddresses, List.mem_filter, List.mem_range, hInside, true_and,
    Bool.not_eq_true', Bool.and_eq_false_iff, decide_eq_false_iff_not]
  omega

end SeekerBuilder

-- ---------------------------------------------------------------------------
-- The layout of the program
-- ---------------------------------------------------------------------------

namespace Seeker

open Statement

/-- The contents of a program that begins with an attempt at `target`. -/
def Contents.start (target : Nat) : Contents where
  attempt := target
  slots _ := .nop
  cell
    | .previous => target
    | .failures => 0
    | .lastSlot => 0
    | .lastKind => nopKind

@[simp] theorem Contents.start_slots (target a : Nat) :
    (Contents.start target).slots a = .nop := rfl

theorem cellStatements_statements (c : SeekerConfig) (p : ProtocolConfig)
    (target selectedCount : Nat) : cellStatements (statements c p target selectedCount) =
      .push target :: (List.replicate c.slotCount (.op .nop) ++
        (cellStatements (body c p selectedCount) ++
          DataCell.all.map fun d => .data ((Contents.start target).cell d))) := by
  have hSlots : cellStatements (List.replicate c.slotCount (.op .nop)) =
      List.replicate c.slotCount (.op .nop) := List.filter_replicate_of_pos rfl
  rw [statements_eq, cellStatements_append, cellStatements_append, cellStatements_append, hSlots,
    List.append_assoc]
  rfl

/-- Every statement is for a record. -/
theorem raw_not_mem_statements (c : SeekerConfig) (p : ProtocolConfig) (target selectedCount : Nat)
    (chunk : Chunk) : .raw chunk ∉ statements c p target selectedCount := by
  simp only [statements, mainPart, successPart, failurePart, unwindPart, cellPart, countFailure,
    chooseAttempt, chooseSlot, chooseKind, trySlot, restart, pokeMain, buildPush, buildOpcode,
    storeCell, loadCell, ops, branchIfFalse, jumpTo, callTo, List.map_cons, List.map_nil,
    List.mem_append, List.mem_cons, List.mem_flatMap, List.mem_replicate, List.not_mem_nil,
    reduceCtorEq, and_false, exists_false, or_false, not_false_eq_true]

theorem exists_record {c : SeekerConfig} {p : ProtocolConfig} {target selectedCount : Nat}
    {s : Statement} (linking : Linking)
    (h : s ∈ cellStatements (statements c p target selectedCount)) :
    ∃ r, s.record? linking = some r := by
  obtain ⟨hMem, hCell⟩ := List.mem_filter.mp h
  cases s with
  | raw chunk => exact absurd hMem (raw_not_mem_statements c p target selectedCount chunk)
  | label name => cases hCell
  | _ => exact ⟨_, rfl⟩

namespace Layout

variable (l : Layout)

/-- The first picture is that of the statements, cell by cell. -/
theorem picture_start (target a : Nat) : l.picture (.start target) a =
    ((cellStatements (statements l.config l.protocol target l.selected.length))[a]?).bind
      (record? l.linking) := by
  have hAt : l.cellsAt = l.config.slotCount + 1 + l.textStatements.length := rfl
  have hWhole := cellStatements_statements l.config l.protocol target l.selected.length
  rw [hWhole, ← textStatements]
  cases a with
  | zero => exact l.picture_zero _
  | succ a =>
    rw [List.getElem?_cons_succ]
    -- the slots, the text and the data cells, in this order
    rcases Nat.lt_or_ge a l.config.slotCount with hSlot | hText
    · rw [List.getElem?_append_left (by rwa [List.length_replicate]),
        List.getElem?_replicate_of_lt hSlot]
      exact l.picture_slot _ (Nat.succ_pos a) hSlot
    · rw [List.getElem?_append_right (by rwa [List.length_replicate]), List.length_replicate]
      unfold picture
      rw [if_neg (by omega), if_neg (by omega)]
      rcases Nat.lt_or_ge (a - l.config.slotCount) l.textStatements.length with hLt | hCell
      · rw [List.getElem?_append_left hLt, if_pos (by omega)]
        unfold text
        rw [if_pos (by omega), Nat.add_sub_add_right]
      · have hIndex : a + 1 - l.cellsAt = a - l.config.slotCount - l.textStatements.length := by
          omega
        rw [List.getElem?_append_right hCell, if_neg (by omega), List.getElem?_map, hIndex]
        cases DataCell.all[a - l.config.slotCount - l.textStatements.length]? <;> rfl

/-- The layout is that of a goal-seeker that begins with an attempt at `target`. -/
structure Describes (seeker : GoalSeeker) (target : Nat) : Prop where
  program : Holds seeker.program.toArray (l.picture (.start target))
  valid : l.Valid (.start target)
  selected : seeker.selectedSlots = l.selected
  free : ∀ a, l.free a → a ∈ l.selected
  linking : Linking.ofLabels seeker.labels seeker.selectedSlots = l.linking
  cells : seeker.cells = ⟨l.linking.label previousCell, l.linking.label failuresCell,
    l.linking.label lastSlotCell, l.linking.label lastKindCell⟩
  slotCount : seeker.slotCount = l.config.slotCount
  frameMarker : seeker.frameMarker = l.config.frameMarker

end Layout

/-- The addresses that are not locked are those of the slots. -/
theorem range_of_not_locked {b : SeekerBuilder} {programLength a : Nat} (hLt : a < programLength)
    (hFree : a ∉ b.lockedAddresses programLength) : 1 ≤ a ∧ a ≤ b.config.slotCount := by
  by_contra hOutside
  exact hFree ((b.locksOthers_lockedAddresses programLength a hLt).mpr hOutside)

/-- The cells of a program that realizes its statements hold their records. -/
theorem holds_of_realizes {l : Layout} {target : Nat} {program : List Chunk}
    (h : Realizes l.linking
      (statements l.config l.protocol target l.selected.length) program) :
    Holds program.toArray (l.picture (.start target)) := by
  intro a
  rw [l.picture_start, List.getElem?_toArray]
  cases hAt : (cellStatements (statements l.config l.protocol target l.selected.length))[a]? with
  | none =>
    rw [List.getElem?_eq_none_iff, ← h.length] at hAt
    rw [List.getElem?_eq_none_iff.mpr hAt]
    rfl
  | some s =>
    obtain ⟨c, hEncode, hCell⟩ := h.cells a s hAt
    obtain ⟨r, hRecord⟩ := exists_record l.linking (List.mem_of_getElem? hAt)
    rw [Statement.encoding_eq hRecord] at hEncode
    obtain ⟨-, rfl⟩ := encode_eq_ok_iff.mp hEncode
    rw [hCell, Option.bind_some, hRecord]
    rfl

/-- A realized statement is for a record that can be written. -/
theorem wellFormed_of_realizes {linking : Linking} {c : SeekerConfig} {p : ProtocolConfig}
    {target selectedCount : Nat} {program : List Chunk}
    (h : Realizes linking (statements c p target selectedCount) program) {s : Statement}
    (hMem : s ∈ cellStatements (statements c p target selectedCount)) :
    ∃ r, s.record? linking = some r ∧ r.WellFormed := by
  obtain ⟨i, hAt⟩ := List.mem_iff_getElem?.mp hMem
  obtain ⟨chunk, hEncode, -⟩ := h.cells i s hAt
  obtain ⟨r, hRecord⟩ := exists_record linking hMem
  rw [Statement.encoding_eq hRecord] at hEncode
  exact ⟨r, hRecord, (encode_eq_ok_iff.mp hEncode).1⟩

theorem body_mem {c : SeekerConfig} {p : ProtocolConfig} {target selectedCount : Nat}
    {s : Statement} (h : s ∈ cellStatements (body c p selectedCount)) :
    s ∈ cellStatements (statements c p target selectedCount) := by
  rw [cellStatements_statements]
  exact List.mem_cons_of_mem _ (List.mem_append_right _ (List.mem_append_left _ h))

/-- Each data cell has its label in front of it. -/
theorem cellPart_split (target : Nat) (d : DataCell) : ∃ before after,
    cellPart target = before ++ .label d.label :: after ∧
      (cellStatements before).length = d.offset := by
  cases d with
  | previous => exact ⟨[], _, rfl, rfl⟩
  | failures => exact ⟨(cellPart target).take 2, _, rfl, rfl⟩
  | lastSlot => exact ⟨(cellPart target).take 4, _, rfl, rfl⟩
  | lastKind => exact ⟨(cellPart target).take 6, _, rfl, rfl⟩

/-- Where the labels of a realized program stand. -/
theorem label_of_realizes {linking : Linking} {c : SeekerConfig} {p : ProtocolConfig}
    {target selectedCount : Nat} {program : List Chunk}
    (h : Realizes linking (statements c p target selectedCount) program) :
    linking.label mainLabel = 0 ∧
    (∀ before name after, body c p selectedCount = before ++ .label name :: after →
      linking.label name = c.slotCount + 1 + (cellStatements before).length) ∧
    ∀ d : DataCell, linking.label d.label =
      c.slotCount + 1 + (cellStatements (body c p selectedCount)).length + d.offset := by
  -- the label at the beginning makes no cell, so the slots follow address zero
  have hFront : (cellStatements ([.label mainLabel, .push target] ++
      List.replicate c.slotCount (.op .nop))).length = c.slotCount + 1 := by
    have hSlots : cellStatements (List.replicate c.slotCount (.op .nop)) =
        List.replicate c.slotCount (.op .nop) := List.filter_replicate_of_pos rfl
    rw [cellStatements_append, hSlots, List.length_append, List.length_replicate]
    exact Nat.add_comm _ _
  refine ⟨h.labels [] mainLabel _ rfl, fun before name after hSplit => ?_, fun d => ?_⟩
  · have hLabel := h.labels ([.label mainLabel, .push target] ++
      List.replicate c.slotCount (.op .nop) ++ before) name (after ++ cellPart target) (by
        rw [statements_eq, hSplit]
        simp only [List.append_assoc, List.cons_append])
    rw [hLabel, cellStatements_append, List.length_append, hFront]
  · obtain ⟨before, after, hSplit, hOffset⟩ := cellPart_split target d
    have hLabel := h.labels ([.label mainLabel, .push target] ++
      List.replicate c.slotCount (.op .nop) ++ body c p selectedCount ++ before) d.label after (by
        rw [statements_eq, hSplit, ← List.append_assoc])
    rw [hLabel, cellStatements_append, cellStatements_append, List.length_append,
      List.length_append, hFront, hOffset]

/-- The data cells are where their labels are. -/
theorem cellLayout_spec {labels : List (String × Nat)} {selected : List Nat} {cells : CellLayout}
    (h : SeekerBuilder.cellLayout labels = .ok cells) :
    cells = ⟨(Linking.ofLabels labels selected).label previousCell,
      (Linking.ofLabels labels selected).label failuresCell,
      (Linking.ofLabels labels selected).label lastSlotCell,
      (Linking.ofLabels labels selected).label lastKindCell⟩ := by
  have hLabel : ∀ {name : String} {address : Nat}, resolveLabel labels name = .ok address →
      (Linking.ofLabels labels selected).label name = address := by
    intro name address hResolve
    show (labels.lookup name).getD 0 = address
    rw [resolveLabel_eq_ok hResolve]
    rfl
  unfold SeekerBuilder.cellLayout at h
  obtain ⟨previous, hPrevious, h⟩ := bind_eq_ok h
  obtain ⟨failures, hFailures, h⟩ := bind_eq_ok h
  obtain ⟨lastSlot, hLastSlot, h⟩ := bind_eq_ok h
  obtain ⟨lastKind, hLastKind, h⟩ := bind_eq_ok h
  cases h
  rw [hLabel hPrevious, hLabel hFailures, hLabel hLastSlot, hLabel hLastKind]

/-- The layout that a realized program has. -/
def Layout.ofRealizes {c : SeekerConfig} {p : ProtocolConfig} {labels : List (String × Nat)}
    {target first : Nat} {others : List Nat} {program : List Chunk}
    (hPossible : SeekerBuilder.layoutProblem? c = none)
    (hRealizes : Realizes (.ofLabels labels (first :: others))
      (statements c p target (first :: others).length) program)
    (hRange : ∀ a ∈ first :: others, 1 ≤ a ∧ a ≤ c.slotCount) : Layout where
  config := c
  protocol := p
  selected := first :: others
  free := (· ∈ first :: others)
  linking := .ofLabels labels (first :: others)
  possible := hPossible
  selected_pos := Nat.succ_pos _
  selected_range := hRange
  selected_free _ ha := ha
  slot_selected i a hi := by
    show ((first :: others)[i]? <|> (first :: others).getLast?).getD 0 = a
    rw [hi]
    rfl
  slot_fallback := List.mem_cons_self
  label_main := (label_of_realizes hRealizes).1
  label_body := (label_of_realizes hRealizes).2.1
  label_cell := (label_of_realizes hRealizes).2.2
  encodable _ hs := wellFormed_of_realizes hRealizes (body_mem hs)

theorem target_lt_of_realizes {linking : Linking} {c : SeekerConfig} {p : ProtocolConfig}
    {target selectedCount : Nat} {program : List Chunk}
    (h : Realizes linking (statements c p target selectedCount) program) :
    target < primeCount := by
  have hMem : .push target ∈ cellStatements (statements c p target selectedCount) := by
    rw [cellStatements_statements]
    exact List.mem_cons_self
  obtain ⟨r, hRecord, hWellFormed⟩ := wellFormed_of_realizes h hMem
  cases hRecord
  obtain ⟨k, hk, hLt⟩ := hWellFormed
  cases hk
  exact hLt

theorem Layout.valid_start {l : Layout} {target : Nat} (hTarget : target < primeCount) :
    l.Valid (.start target) where
  attempt := hTarget
  cell d := by
    cases d with
    | previous => exact hTarget
    | failures => exact (by decide : 0 < primeCount)
    | lastSlot => exact (by decide : 0 < primeCount)
    | lastKind => exact (by decide : nopKind < primeCount)
  fixed _ _ := rfl

/-- A program with an address for its fallback slot was built with a slot selected. -/
theorem exists_cons_of_realizes {labels : List (String × Nat)} {c : SeekerConfig}
    {p : ProtocolConfig} {target selectedCount : Nat} {selected : List Nat} {program : List Chunk}
    (h : Realizes (.ofLabels labels selected) (statements c p target selectedCount) program) :
    ∃ first others, selected = first :: others := by
  -- the success path refers to the fallback slot, so its address was filled in
  have hFallback : (SlotRef.fallback.resolve selected).getD 0 ≠ 0 := by
    refine h.slots .fallback (body_mem (List.mem_filter.mpr ⟨?_, rfl⟩))
    simp [body, successPart]
  cases selected with
  | nil => exact absurd rfl hFallback
  | cons first others => exact ⟨first, others, rfl⟩

/-- A goal-seeker that was built has a layout. -/
theorem build_spec {b b' : SeekerBuilder} {target streak : Nat} {seeker : GoalSeeker}
    (hPossible : SeekerBuilder.layoutProblem? b.config = none)
    (hBuild : (SeekerBuilder.build target streak).run b = .ok seeker b') :
    b'.config = b.config ∧ b'.protocol = b.protocol ∧
      ∃ l : Layout, l.config = b.config ∧ l.protocol = b.protocol ∧ l.Describes seeker target := by
  obtain ⟨assembler, selected, bank, assembled, cells, hAssemble, hPlan, hFinish, hCells, rfl,
    rfl⟩ := SeekerBuilder.build_parts hBuild
  refine ⟨rfl, rfl, ?_⟩
  -- the program was assembled for as many slots as were selected afterwards
  obtain ⟨hCount, hFree⟩ := SlotBank.plan_spec hPlan
  rw [← hCount] at hAssemble
  have hRealizes := finish_spec (Assembler.performAll_prefix hAssemble) hFinish
  obtain ⟨first, others, rfl⟩ := exists_cons_of_realizes hRealizes
  have hRange : ∀ a ∈ first :: others, 1 ≤ a ∧ a ≤ b.config.slotCount := fun a ha =>
    range_of_not_locked (hFree a ha).2.1 (hFree a ha).2.2
  refine ⟨.ofRealizes hPossible hRealizes hRange, rfl, rfl, ?_⟩
  exact {
    program := holds_of_realizes hRealizes
    valid := Layout.valid_start (target_lt_of_realizes hRealizes)
    selected := rfl
    free := fun _ ha => ha
    linking := rfl
    cells := cellLayout_spec hCells
    slotCount := rfl
    frameMarker := rfl }

/-- So it has from a new builder, whatever has become of its bank. -/
theorem exists_layout {config : SeekerConfig} {protocol : ProtocolConfig} {b b' : SeekerBuilder}
    {bank : SlotBank} {target streak : Nat} {seeker : GoalSeeker}
    (hStart : SeekerBuilder.start config protocol = .ok b)
    (hBuild : (SeekerBuilder.build target streak).run { b with bank } = .ok seeker b') :
    ∃ l : Layout, l.config = config ∧ l.protocol = protocol ∧ l.Describes seeker target := by
  obtain ⟨⟨rfl, rfl⟩, hPossible⟩ := SeekerBuilder.start_spec hStart
  obtain ⟨-, -, hLayout⟩ := build_spec (b := { b with bank }) hPossible hBuild
  exact hLayout

-- ---------------------------------------------------------------------------
-- Where its paths begin
-- ---------------------------------------------------------------------------

namespace Layout.Describes

variable {l : Layout} {seeker : GoalSeeker} {target : Nat}

/-- A label that is not at address zero is one of the program. -/
theorem lookup_label (h : l.Describes seeker target) {name : String}
    (hLabel : l.linking.label name ≠ 0) :
    seeker.labels.lookup name = some (l.linking.label name) := by
  rw [← h.linking] at hLabel ⊢
  have hValue : (Linking.ofLabels seeker.labels seeker.selectedSlots).label name =
      (seeker.labels.lookup name).getD 0 := rfl
  rw [hValue] at hLabel ⊢
  cases hFound : seeker.labels.lookup name with
  | none =>
    rw [hFound] at hLabel
    exact absurd rfl hLabel
  | some address => rfl

/-- The success path begins after the nine cells that show the attempt and judge the feedback,
beside the slots. -/
theorem lookup_success (h : l.Describes seeker target) :
    seeker.labels.lookup successLabel = some (l.config.slotCount + 9) := by
  obtain ⟨-, -, hSuccess, -, -⟩ := l.placed_parts (σ := Unit) (.idle 0)
  have hLabel : l.linking.label successLabel = l.config.slotCount + 9 := hSuccess.1.1
  rw [h.lookup_label (by omega), hLabel]

end Layout.Describes

-- ---------------------------------------------------------------------------
-- The engine that is to run it
-- ---------------------------------------------------------------------------

section Start

variable {σ : Type} {l : Layout} {w : Watch σ} {seeker : GoalSeeker} {target : Nat}

/-- A frame with nothing on it is low enough if there is room for its zeros and its marker. -/
theorem Layout.fits_start {marker : Nat} (hRoom : l.config.slotCount + 1 ≤ w.depth) :
    (l.terms w).Fits (List.replicate l.config.slotCount (0 : Word) ++ [(marker : Int)]).length := by
  refine .inr ?_
  rw [List.length_append, List.length_replicate]
  exact hRoom

/-- An engine that is to run the program next is at the beginning of an iteration. -/
theorem Layout.Describes.shows_reinitialize (h : l.Describes seeker target) {e : Engine σ}
    (hDepth : e.maxStackDepth = w.limit) : (l.terms w).Shows ⟨l.picture (.start target),
      List.replicate l.config.slotCount 0 ++ [(l.config.frameMarker : Int)], [], [], e.random⟩ 0
        (e.reinitialize seeker.program seeker.initialStack) where
  ip := rfl
  stack := by
    rw [← h.slotCount, ← h.frameMarker]
    rfl
  calls := rfl
  printed := rfl
  random := rfl
  depth := hDepth
  fault := rfl
  cells := h.program
  allowed := ⟨_, h.valid, rfl⟩

theorem Layout.Describes.shows_start (h : l.Describes seeker target) (historyLimit : Nat)
    (random : σ) : (l.terms w).Shows ⟨l.picture (.start target),
      List.replicate l.config.slotCount 0 ++ [(l.config.frameMarker : Int)], [], [], random⟩ 0
        (Engine.start seeker.program seeker.initialStack w.limit historyLimit random) :=
  h.shows_reinitialize (e := Engine.start [] [] w.limit historyLimit random) rfl

end Start

end Seeker

end FactorMachine
