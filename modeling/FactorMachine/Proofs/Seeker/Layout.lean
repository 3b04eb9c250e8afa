import FactorMachine.Proofs.Seeker.Fragments
import FactorMachine.Seeker.Builder

/-!
# FactorMachine — the memory of a goal-seeker

Of a goal-seeker's memory five things change while it runs: the attempt that address zero
pushes, the selected slots, and the four data cells. They are its `Contents`. Everything else is
the text of the program. A `Layout` says where the two kinds of cells are, and carries the facts
about addresses that the program was assembled with, so that no proof about a run has to look
at assembling again.

Which slots may hold something when a run begins is for the layout to say. A program as it was
built has no operation in all of them, so only the selected ones ever do; the others are free
where a run begins in a memory that somebody else has prepared.

## Results

* `Layout.picture`          — what every address holds, given the contents.
* `Layout.terms`            — the terms under which a goal-seeker runs.
* `Layout.placed_body`      — the text stands where the labels say.
* `Layout.update_attempt`, `Layout.update_slot`, `Layout.update_cell` — what a write changes.
-/

namespace FactorMachine.Seeker

open Statement

-- ---------------------------------------------------------------------------
-- What changes
-- ---------------------------------------------------------------------------

/-- What a slot may be rewritten to. -/
inductive SlotKind where
  | nop
  | add
  | push
  deriving DecidableEq, Repr

def SlotKind.record : SlotKind → Record
  | .nop => .ofOpcode .nop
  | .add => .ofOpcode .add
  | .push => .push 0

theorem SlotKind.wellFormed : (kind : SlotKind) → kind.record.WellFormed
  | .nop => rfl
  | .add => rfl
  | .push => ⟨0, rfl, by decide⟩

/-- The data cells, in the order of their addresses. -/
inductive DataCell where
  | previous
  | failures
  | lastSlot
  | lastKind
  deriving DecidableEq, Repr

namespace DataCell

def all : List DataCell := [previous, failures, lastSlot, lastKind]

/-- The place of a cell among the data cells. -/
def offset (d : DataCell) : Nat := all.idxOf d

def label : DataCell → String
  | previous => previousCell
  | failures => failuresCell
  | lastSlot => lastSlotCell
  | lastKind => lastKindCell

theorem all_offset (d : DataCell) : all[d.offset]? = some d := by
  cases d <;> rfl

theorem offset_of_all : ∀ {i : Nat} {d : DataCell}, all[i]? = some d → i = d.offset
  | 0, _, h => by cases h; rfl
  | 1, _, h => by cases h; rfl
  | 2, _, h => by cases h; rfl
  | 3, _, h => by cases h; rfl
  | _ + 4, _, h => by cases h

end DataCell

/-- The part of a goal-seeker's memory that changes. -/
structure Contents where
  attempt : Nat
  /-- What the slot at an address holds. -/
  slots : Nat → SlotKind
  cell : DataCell → Nat

namespace Contents

/-- The contents with another attempt. -/
def aim (m : Contents) (n : Nat) : Contents := { m with attempt := n }

/-- The contents with a slot rewritten. -/
def rewrite (m : Contents) (address : Nat) (kind : SlotKind) : Contents :=
  { m with slots := Function.update m.slots address kind }

/-- The contents with another value in a data cell. -/
def store (m : Contents) (d : DataCell) (v : Nat) : Contents :=
  { m with cell := Function.update m.cell d v }

variable (m : Contents)

@[simp] theorem aim_attempt (n : Nat) : (m.aim n).attempt = n := rfl

@[simp] theorem aim_slots (n : Nat) : (m.aim n).slots = m.slots := rfl

@[simp] theorem aim_cell (n : Nat) : (m.aim n).cell = m.cell := rfl

@[simp] theorem rewrite_attempt (a : Nat) (kind : SlotKind) :
    (m.rewrite a kind).attempt = m.attempt := rfl

@[simp] theorem rewrite_cell (a : Nat) (kind : SlotKind) : (m.rewrite a kind).cell = m.cell := rfl

@[simp] theorem rewrite_slots_self (a : Nat) (kind : SlotKind) :
    (m.rewrite a kind).slots a = kind := by
  simp [rewrite]

theorem rewrite_slots_of_ne {a a' : Nat} (kind : SlotKind) (h : a' ≠ a) :
    (m.rewrite a kind).slots a' = m.slots a' := by
  simp [rewrite, h]

@[simp] theorem store_attempt (d : DataCell) (v : Nat) : (m.store d v).attempt = m.attempt := rfl

@[simp] theorem store_slots (d : DataCell) (v : Nat) : (m.store d v).slots = m.slots := rfl

@[simp] theorem store_cell_self (d : DataCell) (v : Nat) : (m.store d v).cell d = v := by
  simp [store]

theorem store_cell_of_ne {d d' : DataCell} (v : Nat) (h : d' ≠ d) :
    (m.store d v).cell d' = m.cell d' := by
  simp [store, h]

end Contents

-- ---------------------------------------------------------------------------
-- Where it stands
-- ---------------------------------------------------------------------------

/-- The statements between the slots and the data cells. -/
def body (c : SeekerConfig) (p : ProtocolConfig) (selectedCount : Nat) : List Statement :=
  ops [.dup, .print, .input] ++ [.push p.successFeedback, .op .compareEq] ++
  branchIfFalse failureLabel ++ successPart c ++ failurePart c p selectedCount ++ unwindPart c ++
  [.label guardLabel, .op .halt]

theorem statements_eq (c : SeekerConfig) (p : ProtocolConfig) (target selectedCount : Nat) :
    statements c p target selectedCount =
      [.label mainLabel, .push target] ++ List.replicate c.slotCount (.op .nop) ++
        body c p selectedCount ++ cellPart target := by
  simp only [statements, mainPart, body, List.append_assoc]

/-- A goal-seeker with the addresses that it was assembled with. -/
structure Layout where
  config : SeekerConfig
  protocol : ProtocolConfig
  /-- The addresses of the slots that may be rewritten. -/
  selected : List Nat
  /-- The addresses whose slots need not hold what they were assembled with. -/
  free : Nat → Prop
  linking : Linking
  possible : SeekerBuilder.layoutProblem? config = none
  selected_pos : 0 < selected.length
  selected_range : ∀ a ∈ selected, 1 ≤ a ∧ a ≤ config.slotCount
  selected_free : ∀ a ∈ selected, free a
  slot_selected : ∀ i a, selected[i]? = some a → linking.slot (.selected i) = a
  slot_fallback : linking.slot .fallback ∈ selected
  label_main : linking.label mainLabel = 0
  label_body : ∀ before name after,
    body config protocol selected.length = before ++ .label name :: after →
      linking.label name = config.slotCount + 1 + (cellStatements before).length
  label_cell : ∀ d : DataCell, linking.label d.label =
    config.slotCount + 1 + (cellStatements (body config protocol selected.length)).length + d.offset
  encodable : ∀ s ∈ cellStatements (body config protocol selected.length),
    ∃ r, s.record? linking = some r ∧ r.WellFormed

namespace Layout

variable (l : Layout)

/-- The statements of the text. -/
def textStatements : List Statement :=
  cellStatements (body l.config l.protocol l.selected.length)

/-- The address of the first data cell. -/
def cellsAt : Nat := l.config.slotCount + 1 + l.textStatements.length

/-- The records between the slots and the data cells. -/
def text : Picture := fun a =>
  if l.config.slotCount < a then
    (l.textStatements[a - (l.config.slotCount + 1)]?).bind (Statement.record? l.linking)
  else none

/-- What every address holds. -/
def picture (m : Contents) : Picture := fun a =>
  if a = 0 then some (.push m.attempt)
  else if a ≤ l.config.slotCount then some (m.slots a).record
  else if a < l.cellsAt then l.text a
  else (DataCell.all[a - l.cellsAt]?).map fun d => .data (m.cell d)

/-- Contents that can be in memory: every number is an index of a prime, and only slots that are
free hold anything but no operation. -/
structure Valid (m : Contents) : Prop where
  attempt : m.attempt < primeCount
  cell : ∀ d, m.cell d < primeCount
  fixed : ∀ a, ¬ l.free a → m.slots a = .nop

variable {l}

theorem text_lt {a : Nat} {r : Record} (h : l.text a = some r) :
    l.config.slotCount < a ∧ a < l.cellsAt := by
  unfold text at h
  split at h
  · rename_i hAfter
    obtain ⟨s, hs, -⟩ := Option.bind_eq_some_iff.mp h
    obtain ⟨hi, -⟩ := List.getElem?_eq_some_iff.mp hs
    refine ⟨hAfter, ?_⟩
    unfold cellsAt
    omega
  · cases h

theorem picture_of_text {a : Nat} {r : Record} (m : Contents) (h : l.text a = some r) :
    l.picture m a = some r := by
  obtain ⟨hAfter, hBefore⟩ := text_lt h
  unfold picture
  rw [if_neg (by omega), if_neg (by omega), if_pos hBefore, h]

theorem text_wellFormed {a : Nat} {r : Record} (h : l.text a = some r) : r.WellFormed := by
  unfold text at h
  split at h
  · obtain ⟨s, hs, hr⟩ := Option.bind_eq_some_iff.mp h
    obtain ⟨r', hr', hWellFormed⟩ := l.encodable s (List.mem_of_getElem? hs)
    rw [hr', Option.some.injEq] at hr
    exact hr ▸ hWellFormed
  · cases h

theorem picture_wellFormed {m : Contents} (hValid : l.Valid m) {a : Nat} {r : Record}
    (h : l.picture m a = some r) : r.WellFormed := by
  unfold picture at h
  split at h
  · cases h
    exact ⟨_, rfl, hValid.attempt⟩
  · split at h
    · cases h
      exact SlotKind.wellFormed _
    · split at h
      · exact text_wellFormed h
      · obtain ⟨d, -, rfl⟩ := Option.map_eq_some_iff.mp h
        exact hValid.cell d

theorem picture_zero (m : Contents) : l.picture m 0 = some (.push m.attempt) := by
  unfold picture
  rw [if_pos rfl]

theorem picture_slot (m : Contents) {a : Nat} (ha : 1 ≤ a) (ha' : a ≤ l.config.slotCount) :
    l.picture m a = some (m.slots a).record := by
  unfold picture
  rw [if_neg (by omega), if_pos ha']

theorem label_cell_eq (d : DataCell) : l.linking.label d.label = l.cellsAt + d.offset :=
  l.label_cell d

theorem picture_cell (m : Contents) (d : DataCell) :
    l.picture m (l.linking.label d.label) = some (.data (m.cell d)) := by
  have hAt : l.config.slotCount + 1 ≤ l.cellsAt := Nat.le_add_right _ _
  rw [label_cell_eq]
  unfold picture
  rw [if_neg (by omega), if_neg (by omega), if_neg (by omega), Nat.add_sub_cancel_left,
    d.all_offset]
  rfl

-- ---------------------------------------------------------------------------
-- What a write changes
-- ---------------------------------------------------------------------------

theorem update_attempt (m : Contents) (n : Nat) :
    Function.update (l.picture m) (l.linking.label mainLabel) (some (.push n)) =
      l.picture (m.aim n) := by
  funext a
  rw [l.label_main]
  by_cases ha : a = 0
  · subst ha
    rw [Function.update_self, picture_zero, m.aim_attempt]
  · rw [Function.update_of_ne ha]
    unfold picture
    rw [if_neg ha, if_neg ha, m.aim_slots, m.aim_cell]

theorem update_slot (m : Contents) (kind : SlotKind) {address : Nat} (ha : 1 ≤ address)
    (ha' : address ≤ l.config.slotCount) :
    Function.update (l.picture m) address (some kind.record) =
      l.picture (m.rewrite address kind) := by
  funext a
  by_cases hSame : a = address
  · subst hSame
    rw [Function.update_self, picture_slot _ ha ha', m.rewrite_slots_self]
  · rw [Function.update_of_ne hSame]
    unfold picture
    rw [m.rewrite_attempt, m.rewrite_cell, m.rewrite_slots_of_ne kind hSame]

theorem update_cell (m : Contents) (d : DataCell) (v : Nat) :
    Function.update (l.picture m) (l.linking.label d.label) (some (.data v)) =
      l.picture (m.store d v) := by
  funext a
  by_cases hSame : a = l.linking.label d.label
  · subst hSame
    rw [Function.update_self, picture_cell, m.store_cell_self]
  · rw [Function.update_of_ne hSame]
    unfold picture
    rw [m.store_attempt, m.store_slots]
    split
    · rfl
    · split
      · rfl
      · split
        · rfl
        · -- data cells with different labels have different places among the data cells
          rename_i hAfter
          cases hd : DataCell.all[a - l.cellsAt]? with
          | none => rfl
          | some d' =>
            have hNe : d' ≠ d := by
              rintro rfl
              have hOffset := DataCell.offset_of_all hd
              rw [label_cell_eq] at hSame
              omega
            rw [Option.map_some, Option.map_some, m.store_cell_of_ne v hNe]

theorem picture_store_of_ne {m : Contents} {d : DataCell} {v a : Nat}
    (h : a ≠ l.linking.label d.label) :
    l.picture (m.store d v) a = l.picture m a := by
  rw [← l.update_cell, Function.update_of_ne h]

theorem picture_aim_of_ne {m : Contents} {n a : Nat} (h : a ≠ 0) :
    l.picture (m.aim n) a = l.picture m a := by
  rw [← l.update_attempt, Function.update_of_ne (l.label_main ▸ h)]

theorem Valid.aim {m : Contents} {n : Nat} (h : l.Valid m) (hn : n < primeCount) :
    l.Valid (m.aim n) where
  attempt := hn
  cell := h.cell
  fixed := h.fixed

theorem Valid.store {m : Contents} {v : Nat} (d : DataCell) (h : l.Valid m)
    (hv : v < primeCount) : l.Valid (m.store d v) where
  attempt := h.attempt
  fixed := h.fixed
  cell d' := by
    by_cases hSame : d' = d
    · rw [hSame, m.store_cell_self]
      exact hv
    · rw [m.store_cell_of_ne v hSame]
      exact h.cell d'

theorem Valid.rewrite {m : Contents} {address : Nat} (kind : SlotKind) (h : l.Valid m)
    (hSelected : address ∈ l.selected) : l.Valid (m.rewrite address kind) where
  attempt := h.attempt
  cell := h.cell
  fixed a ha := by
    have hNe : a ≠ address := by
      rintro rfl
      exact ha (l.selected_free a hSelected)
    rw [m.rewrite_slots_of_ne kind hNe]
    exact h.fixed a ha

-- ---------------------------------------------------------------------------
-- The terms of a run
-- ---------------------------------------------------------------------------

/-- The terms under which a goal-seeker runs: only its contents change, and they stay valid. -/
def terms {σ : Type} (l : Layout) (w : Watch σ) : Terms σ where
  toWatch := w
  linking := l.linking
  text := l.text
  allows picture := ∃ m, l.Valid m ∧ picture = l.picture m
  text_of_allows := by
    rintro _ ⟨m, -, rfl⟩ a r hText
    exact picture_of_text m hText
  wellFormed_of_allows := by
    rintro _ ⟨m, hValid, rfl⟩ a r hRecord
    exact picture_wellFormed hValid hRecord

section Terms

variable {σ : Type} {w : Watch σ}

/-- Statements that stand in the text, and whose labels are followed by more of it. -/
theorem placed_of_text {ss : List Statement} {address : Nat}
    (hCells : ∀ (i : Nat) s, (cellStatements ss)[i]? = some s →
      ∃ r, s.record? l.linking = some r ∧ l.text (address + i) = some r)
    (hLabels : ∀ before name after, ss = before ++ .label name :: after →
      l.linking.label name = address + (cellStatements before).length ∧
        (l.text (address + (cellStatements before).length)).isSome) :
    (l.terms w).Placed address ss := by
  induction ss generalizing address with
  | nil => trivial
  | cons s ss ih =>
    -- a label makes no cell, so only the other statements move the address on
    by_cases hCell : s.makesCell = true
    · have hCons : cellStatements (s :: ss) = s :: cellStatements ss := by
        simp [cellStatements, hCell]
      have hRest := @ih (address + 1)
        (fun i s' hs' => by
          have hNext := hCells (i + 1) s' (by rw [hCons]; exact hs')
          rwa [show address + (i + 1) = address + 1 + i by omega] at hNext)
        (fun before name after hSplit => by
          have hNext := hLabels (s :: before) name after (by rw [hSplit]; rfl)
          have hBefore : cellStatements (s :: before) = s :: cellStatements before := by
            simp [cellStatements, hCell]
          rw [hBefore, List.length_cons] at hNext
          rwa [show address + ((cellStatements before).length + 1) =
            address + 1 + (cellStatements before).length by omega] at hNext)
      obtain ⟨r, hr, hText⟩ := hCells 0 s (by rw [hCons]; rfl)
      exact (Terms.placed_cons hCell).mpr ⟨hText.trans hr.symm, hRest⟩
    · obtain ⟨name, rfl⟩ : ∃ name, s = .label name := by
        cases s <;> first | exact ⟨_, rfl⟩ | exact absurd rfl hCell
      have hCons : cellStatements (.label name :: ss) = cellStatements ss := rfl
      refine ⟨hLabels [] name ss rfl, ih hCells fun before name' after hSplit => ?_⟩
      exact hLabels (.label name :: before) name' after (by rw [hSplit]; rfl)

/-- The last statement of the body is no label, so a cell follows every label. -/
theorem cells_before_label_lt {c : SeekerConfig} {p : ProtocolConfig} {selectedCount : Nat}
    {before after : List Statement} {name : String}
    (hSplit : body c p selectedCount = before ++ .label name :: after) :
    (cellStatements before).length < (cellStatements (body c p selectedCount)).length := by
  obtain ⟨init, hInit⟩ : ∃ init, body c p selectedCount = init ++ [.op .halt] :=
    ⟨_, (List.append_assoc _ [Statement.label guardLabel] [Statement.op .halt]).symm⟩
  have hLast : (.op .halt : Statement) ∈ cellStatements after := by
    have hSame := hInit.symm.trans hSplit
    rcases List.eq_nil_or_concat after with rfl | ⟨front, last, rfl⟩
    · -- the body would end in the label itself
      have hBad := (List.append_inj' hSame rfl).2
      cases hBad
    · rw [List.concat_eq_append, ← List.cons_append, ← List.append_assoc] at hSame
      -- what follows the label ends in the last statement of the body
      have hTail := (List.append_inj' hSame rfl).2
      rw [List.concat_eq_append, cellStatements_append, ← hTail]
      exact List.mem_append_right _ (List.mem_singleton.mpr rfl)
  have hWhole : cellStatements (body c p selectedCount) =
      cellStatements before ++ cellStatements after := by
    rw [hSplit, cellStatements_append]
    rfl
  have hPos := List.length_pos_of_mem hLast
  rw [hWhole, List.length_append]
  omega

/-- The text stands after the slots, with its labels where they say. -/
theorem placed_body : (l.terms w).Placed (l.config.slotCount + 1)
    (body l.config l.protocol l.selected.length) := by
  have hCells : ∀ (i : Nat) s, l.textStatements[i]? = some s →
      ∃ r, s.record? l.linking = some r ∧ l.text (l.config.slotCount + 1 + i) = some r := by
    intro i s hs
    obtain ⟨r, hr, -⟩ := l.encodable s (List.mem_of_getElem? hs)
    refine ⟨r, hr, ?_⟩
    unfold text
    rw [if_pos (by omega), Nat.add_sub_cancel_left, hs]
    exact hr
  refine placed_of_text hCells fun before name after hSplit => ⟨l.label_body _ _ _ hSplit, ?_⟩
  have hLess : (cellStatements before).length < l.textStatements.length :=
    cells_before_label_lt hSplit
  obtain ⟨r, -, hText⟩ := hCells _ _ (List.getElem?_eq_getElem hLess)
  rw [hText]
  rfl

/-- The parts of the text: showing the attempt, judging the feedback, and what follows a hit
and a miss, each with the label that leads there. -/
theorem placed_parts (l : Layout) (w : Watch σ) :
    (l.terms w).Placed (l.config.slotCount + 1) (ops [.dup, .print, .input]) ∧
    (l.terms w).Placed (l.config.slotCount + 4)
      ([.push l.protocol.successFeedback, .op .compareEq] ++ branchIfFalse failureLabel) ∧
    (l.terms w).Placed (l.config.slotCount + 9) (successPart l.config) ∧
    (l.terms w).Placed (l.linking.label failureLabel)
      (failurePart l.config l.protocol l.selected.length) ∧
    (l.terms w).Placed (l.linking.label unwindLabel) (unwindPart l.config) := by
  have hBody : (l.terms w).Placed (l.config.slotCount + 1)
      (ops [.dup, .print, .input] ++
        (([.push l.protocol.successFeedback, .op .compareEq] ++ branchIfFalse failureLabel) ++
          (successPart l.config ++ (failurePart l.config l.protocol l.selected.length ++
            (unwindPart l.config ++ [.label guardLabel, .op .halt]))))) := by
    have hWhole : (l.terms w).Placed (l.config.slotCount + 1)
        (body l.config l.protocol l.selected.length) := placed_body
    simp only [body, List.append_assoc] at hWhole ⊢
    exact hWhole
  obtain ⟨hShow, hRest⟩ := hBody.append
  obtain ⟨hJudge, hRest⟩ := hRest.append
  obtain ⟨hSuccess, hRest⟩ := hRest.append
  obtain ⟨hFailure, hRest⟩ := hRest.append
  obtain ⟨hUnwind, -⟩ := hRest.append
  -- the last two parts begin with labels, and stand where the linking says
  have hFailureAt := hFailure.1.1
  have hUnwindAt := hUnwind.1.1
  rw [← hFailureAt] at hFailure
  rw [← hUnwindAt] at hUnwind
  exact ⟨hShow, hJudge, hSuccess, hFailure, hUnwind⟩

/-- How an engine is watched matters to what it shows only by the depth. -/
theorem shows_of_depth {w' : Watch σ} {v : View σ} {address : Nat} {e : Engine σ}
    (h : (l.terms w).Shows v address e) (hDepth : w.limit = w'.limit) :
    (l.terms w').Shows v address e :=
  ⟨h.ip, h.stack, h.calls, h.printed, h.random, h.depth.trans hDepth, h.fault, h.cells, h.allowed⟩

/-- Address zero holds a push in every memory that may occur. -/
theorem enters_main : (l.terms w).Enters mainLabel := by
  rintro _ ⟨m, -, rfl⟩
  show (l.picture m (l.linking.label mainLabel)).isSome
  rw [l.label_main, picture_zero]
  rfl

end Terms

end Layout

end FactorMachine.Seeker
