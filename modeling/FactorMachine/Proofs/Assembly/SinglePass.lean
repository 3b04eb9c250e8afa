import FactorMachine.Proofs.Assembly.Placement
import FactorMachine.Proofs.Sorting

/-!
# FactorMachine — two passes give what a single one would

A single pass that knows every label and every slot in advance has nothing to fill in: each
cell is the chunk of its statement. The assembler does not know a slot, nor a label that is
defined later, and leaves a placeholder for either. Its outcome is the same nevertheless, and
it comes out whenever every reference has an address that can be pushed.

`Recorded` is what the first pass records about places: where each label stands, and which
cells are placeholders. A label that is defined later stands strictly after the reference to
it, so it never has address zero, and the check for placeholders that are left always passes.

## Results

* `performAll_recorded` — the labels and the placeholders after the first pass.
* `finish_eq`           — finishing is filling in; the final check never fails.
* `finish_single_pass`  — when a program comes out, and which one.
-/

namespace FactorMachine

-- ---------------------------------------------------------------------------
-- Places in a list of statements
-- ---------------------------------------------------------------------------

/-- Some statement satisfies `P`, as a property of the statements before it and of itself. -/
def Occurs (P : List Statement → Statement → Prop) (ss : List Statement) : Prop :=
  ∃ before s after, ss = before ++ s :: after ∧ P before s

theorem not_occurs_nil {P : List Statement → Statement → Prop} : ¬ Occurs P [] := by
  rintro ⟨before, s, after, hSplit, -⟩
  simp at hSplit

/-- One statement more is one place more. -/
theorem occurs_concat {P : List Statement → Statement → Prop} {done : List Statement}
    {s : Statement} : Occurs P (done ++ [s]) ↔ Occurs P done ∨ P done s := by
  constructor
  · rintro ⟨before, t, after, hSplit, hP⟩
    rcases List.eq_nil_or_concat after with rfl | ⟨init, last, rfl⟩
    · obtain ⟨rfl, hEnd⟩ := List.append_inj' hSplit rfl
      cases hEnd
      exact .inr hP
    · rw [List.concat_eq_append, ← List.cons_append, ← List.append_assoc] at hSplit
      exact .inl ⟨before, t, init, (List.append_inj' hSplit rfl).1, hP⟩
  · rintro (⟨before, t, after, rfl, hP⟩ | hP)
    · exact ⟨before, t, after ++ [s], by simp, hP⟩
    · exact ⟨done, s, [], rfl, hP⟩

/-- A label stands for the number of cells before its definition. -/
def LabelAt (ss : List Statement) (name : String) (address : Nat) : Prop :=
  Occurs (fun before s => s = .label name ∧ (cellStatements before).length = address) ss

/-- Whether a statement refers to an address that the statements before it do not tell. -/
def Statement.RefersAhead (before : List Statement) : Statement → Prop
  | .pushLabel name => .label name ∉ before
  | .pushSlot _ => True
  | _ => False

/-- The cell of a forward reference or of a slot. -/
def Deferred (ss : List Statement) (address : Nat) : Prop :=
  Occurs (fun before s => s.RefersAhead before ∧ (cellStatements before).length = address) ss

theorem labelAt_iff_mem {ss : List Statement} {name : String} :
    (∃ address, LabelAt ss name address) ↔ .label name ∈ ss := by
  constructor
  · rintro ⟨address, before, s, after, rfl, rfl, -⟩
    simp
  · intro hMem
    obtain ⟨before, after, rfl⟩ := List.append_of_mem hMem
    exact ⟨_, before, _, after, rfl, rfl, rfl⟩

theorem Statement.RefersAhead.makesCell {before : List Statement} {s : Statement}
    (h : s.RefersAhead before) : s.makesCell = true := by
  cases s <;> first | rfl | exact h.elim

theorem Deferred.lt {ss : List Statement} {address : Nat} (h : Deferred ss address) :
    address < (cellStatements ss).length := by
  obtain ⟨before, s, after, rfl, hAhead, rfl⟩ := h
  have hRest : cellStatements (s :: after) = s :: cellStatements after :=
    List.filter_cons_of_pos hAhead.makesCell
  rw [cellStatements_append, hRest, List.length_append, List.length_cons]
  omega

-- ---------------------------------------------------------------------------
-- What the first pass records
-- ---------------------------------------------------------------------------

namespace Assembler

/-- The addresses of the placeholders. -/
def deferred (a : Assembler) : List Nat := a.labelRefs.map (·.1) ++ a.slotRefs.map (·.1)

/-- Labels and placeholders as the statements carried out so far have them. -/
structure Recorded (done : List Statement) (a : Assembler) : Prop where
  labels : ∀ name address, a.addressOf name = some address ↔ LabelAt done name address
  deferred : ∀ address, address ∈ a.deferred ↔ Deferred done address
  nodup : a.deferred.Nodup
  /-- A label that is referred to ahead stands after the reference. -/
  ahead : ∀ i name address, (i, name) ∈ a.labelRefs → a.addressOf name = some address → i < address

theorem recorded_empty : Recorded [] empty where
  labels name address := by
    constructor
    · intro hAddress
      cases hAddress
    · intro hLabel
      exact absurd hLabel not_occurs_nil
  deferred address := by
    constructor
    · intro hMem
      simp [Assembler.deferred, empty] at hMem
    · intro hDeferred
      exact absurd hDeferred not_occurs_nil
  nodup := .nil
  ahead i name address hRef := by simp [empty] at hRef

variable {done : List Statement} {a b : Assembler} {s : Statement}

/-- A label has an address as soon as it is defined. -/
theorem Recorded.addressOf_eq_none (h : Recorded done a) {name : String} :
    a.addressOf name = none ↔ .label name ∉ done := by
  rw [← labelAt_iff_mem, not_exists, Option.eq_none_iff_forall_ne_some]
  exact forall_congr' fun address => not_congr (h.labels name address)

theorem Recorded.defers_iff (h : Recorded done a) : a.Defers s ↔ s.RefersAhead done := by
  cases s with
  | pushLabel name => exact h.addressOf_eq_none
  | _ => exact Iff.rfl

/-- A statement with a cell defines no label. -/
theorem labelAt_concat_of_makesCell (hCell : s.makesCell = true) {name : String} {address : Nat} :
    LabelAt (done ++ [s]) name address ↔ LabelAt done name address := by
  rw [LabelAt, occurs_concat]
  constructor
  · rintro (hBefore | ⟨rfl, -⟩)
    · exact hBefore
    · cases hCell
  · exact .inl

/-- A cell that is final at once. -/
theorem Recorded.append_final (h : Recorded done a) (hCell : s.makesCell = true)
    (hFinal : ¬ a.Defers s) (c : Chunk) :
    Recorded (done ++ [s]) { a with code := a.code.push c } where
  labels name address := (h.labels name address).trans (labelAt_concat_of_makesCell hCell).symm
  deferred address := by
    rw [Deferred, occurs_concat]
    constructor
    · intro hMem
      exact .inl ((h.deferred address).mp hMem)
    · rintro (hBefore | ⟨hAhead, -⟩)
      · exact (h.deferred address).mpr hBefore
      · exact absurd (h.defers_iff.mpr hAhead) hFinal
  nodup := h.nodup
  ahead := h.ahead

/-- A placeholder, for a label that is not defined yet or for a slot. -/
theorem Recorded.append_deferred (h : Recorded done a)
    (hSize : a.code.size = (cellStatements done).length) (hDefers : a.Defers s)
    (hLabels : b.labels = a.labels) (hNew : b.deferred.Perm (a.code.size :: a.deferred))
    (hRefs : ∀ i name, (i, name) ∈ b.labelRefs →
      (i, name) ∈ a.labelRefs ∨ a.addressOf name = none) : Recorded (done ++ [s]) b where
  labels name address := by
    have hAhead := h.defers_iff.mp hDefers
    rw [addressOf, hLabels]
    exact (h.labels name address).trans (labelAt_concat_of_makesCell hAhead.makesCell).symm
  deferred address := by
    rw [hNew.mem_iff, List.mem_cons, Deferred, occurs_concat, or_comm, h.deferred, ← hSize]
    constructor
    · rintro (hBefore | rfl)
      · exact .inl hBefore
      · exact .inr ⟨h.defers_iff.mp hDefers, rfl⟩
    · rintro (hBefore | ⟨-, rfl⟩)
      · exact .inl hBefore
      · exact .inr rfl
  nodup := by
    rw [hNew.nodup_iff, List.nodup_cons]
    refine ⟨?_, h.nodup⟩
    intro hMem
    -- a placeholder from before stands in one of the cells from before
    have hLt := ((h.deferred _).mp hMem).lt
    omega
  ahead i name address hRef hAddress := by
    rw [addressOf, hLabels] at hAddress
    rcases hRefs i name hRef with hOld | hNone
    · exact h.ahead i name address hOld hAddress
    · rw [addressOf, hAddress] at hNone
      cases hNone

/-- A label that is defined stands after every cell so far. -/
theorem Recorded.define {name : String} (h : Recorded done a)
    (hSize : a.code.size = (cellStatements done).length) (hFresh : a.addressOf name = none) :
    Recorded (done ++ [.label name]) (a.defined name) where
  labels other address := by
    rw [LabelAt, occurs_concat]
    by_cases hSame : other = name
    · subst hSame
      rw [addressOf_defined, Option.some.injEq, hSize]
      constructor
      · intro hHere
        exact .inr ⟨rfl, hHere⟩
      · rintro (hBefore | ⟨-, hHere⟩)
        · -- the name had no address before
          have hOld := (h.labels other address).mpr hBefore
          rw [hFresh] at hOld
          cases hOld
        · exact hHere
    · rw [addressOf_defined_of_ne hSame]
      refine (h.labels other address).trans ⟨.inl, ?_⟩
      rintro (hBefore | ⟨hEq, -⟩)
      · exact hBefore
      · cases hEq
        exact absurd rfl hSame
  deferred address := by
    rw [Deferred, occurs_concat]
    refine (h.deferred address).trans ⟨.inl, ?_⟩
    rintro (hBefore | ⟨hAhead, -⟩)
    · exact hBefore
    · exact hAhead.elim
  nodup := h.nodup
  ahead i other address hRef hAddress := by
    by_cases hSame : other = name
    · subst hSame
      rw [addressOf_defined, Option.some.injEq, hSize] at hAddress
      have hMem : i ∈ a.deferred := List.mem_append_left _ (List.mem_map.mpr ⟨_, hRef, rfl⟩)
      have hLt := ((h.deferred i).mp hMem).lt
      omega
    · rw [addressOf_defined_of_ne hSame] at hAddress
      exact h.ahead i other address hRef hAddress

/-- Carrying out a statement records what it adds. -/
theorem Recorded.perform {address : Nat} (h : Recorded done a)
    (hSize : a.code.size = (cellStatements done).length)
    (hRun : (perform s).run a = .ok address b) : Recorded (done ++ [s]) b := by
  rcases perform_cases hRun with ⟨c, hCell, hFinal, rfl, -⟩ | ⟨name, c, rfl, hNone, rfl⟩ |
    ⟨slot, c, rfl, rfl⟩ | ⟨name, rfl, hFresh, rfl⟩
  · exact h.append_final hCell hFinal c
  · refine h.append_deferred hSize hNone rfl (.refl _) ?_
    intro i other hRef
    rcases List.mem_cons.mp hRef with hNew | hOld
    · cases hNew
      exact .inr hNone
    · exact .inl hOld
  · exact h.append_deferred hSize trivial rfl List.perm_middle fun _ _ hRef => .inl hRef
  · exact h.define hSize hFresh

theorem Recorded.performAll {ss : List Statement} (h : Recorded done a) (hPrefix : a.Prefix done)
    (hRun : (Assembler.performAll ss).run a = .ok () b) : Recorded (done ++ ss) b := by
  induction ss generalizing done a with
  | nil =>
    cases hRun
    rwa [List.append_nil]
  | cons s ss ih =>
    obtain ⟨address, a', hFirst, hRest⟩ := run_bind_eq_ok hRun
    have hAll := ih (h.perform hPrefix.size hFirst) (hPrefix.perform hFirst) hRest
    rwa [List.append_assoc] at hAll

/-- What the first pass has recorded. -/
theorem performAll_recorded {ss : List Statement}
    (hRun : (Assembler.performAll ss).run .empty = .ok () a) : Recorded ss a :=
  recorded_empty.performAll prefix_empty hRun

end Assembler

-- ---------------------------------------------------------------------------
-- Filling in
-- ---------------------------------------------------------------------------

theorem exists_encodePush_iff {target : Nat} :
    (∃ c, encodePush target = .ok c) ↔ target < primeCount := by
  constructor
  · rintro ⟨c, hEncode⟩
    obtain ⟨⟨k, hSame, hk⟩, -⟩ := encode_eq_ok_iff.mp hEncode
    cases hSame
    exact hk
  · intro hTarget
    exact ⟨_, encode_eq_ok_iff.mpr ⟨⟨target, rfl, hTarget⟩, rfl⟩⟩

/-- Every opcode but a push can be written without an operand. -/
theorem exists_encodeOpcode_iff {op : Opcode} : (∃ c, encodeOpcode op = .ok c) ↔ op ≠ .push := by
  constructor
  · rintro ⟨c, hEncode⟩ rfl
    obtain ⟨⟨k, hSame, -⟩, -⟩ := encode_eq_ok_iff.mp hEncode
    cases hSame
  · intro hOp
    exact ⟨_, encode_eq_ok_iff.mpr ⟨wellFormed_ofOpcode hOp, rfl⟩⟩

section
variable {ρ : Type} {resolve : ρ → Except AssemblyError Nat} {refs : List (Nat × ρ)}
  {code filled : Array Chunk}

/-- Filling in succeeds if every reference has an address that can be pushed. -/
theorem exists_fillPlaceholders_iff :
    (∃ filled, fillPlaceholders resolve refs code = .ok filled) ↔
      ∀ ref ∈ refs, ∃ target, resolve ref.2 = .ok target ∧ target < primeCount := by
  induction refs generalizing code with
  | nil => simp [fillPlaceholders]
  | cons ref refs ih =>
    obtain ⟨at_, r⟩ := ref
    rw [List.forall_mem_cons, fillPlaceholders]
    cases hResolve : resolve r with
    | error e => simp
    | ok target =>
      dsimp only
      cases hEncode : encodePush target with
      | error e =>
        have hLarge : ¬ target < primeCount := by
          intro hTarget
          obtain ⟨c, hOk⟩ := exists_encodePush_iff.mpr hTarget
          rw [hEncode] at hOk
          cases hOk
        simp [hLarge]
      | ok c =>
        have hTarget := exists_encodePush_iff.mp ⟨c, hEncode⟩
        dsimp only
        rw [ih]
        simp [hTarget]

/-- Filling in fails on account of a reference or of its encoding. -/
theorem fillPlaceholders_eq_error {e : AssemblyError}
    (h : fillPlaceholders resolve refs code = .error e) :
    (∃ r, resolve r = .error e) ∨ ∃ cause, e = .chunk cause := by
  induction refs generalizing code with
  | nil => cases h
  | cons ref refs ih =>
    obtain ⟨at_, r⟩ := ref
    rw [fillPlaceholders_cons] at h
    rcases bind_eq_error h with hResolve | ⟨target, -, h⟩
    · exact .inl ⟨r, hResolve⟩
    rcases bind_eq_error h with hEncode | ⟨c, -, h⟩
    · obtain ⟨cause, -, rfl⟩ := mapError_eq_error hEncode
      exact .inr ⟨cause, rfl⟩
    · exact ih h

end

theorem isResolved_of_push {program : Array Chunk} {address target : Nat} {c : Chunk}
    (hCell : program[address]? = some c) (hEncode : encodePush target = .ok c)
    (hTarget : target ≠ 0) : isResolved program address = true := by
  obtain ⟨hWellFormed, rfl⟩ := encode_eq_ok_iff.mp hEncode
  unfold isResolved
  rw [hCell]
  dsimp only
  rw [hWellFormed.decode_chunk]
  exact bne_iff_ne.mpr hTarget

theorem validatePlaceholders_eq_ok {program : Array Chunk} {addresses : List Nat}
    (h : ∀ address ∈ addresses, isResolved program address = true) :
    validatePlaceholders program addresses = .ok () := by
  have hNone : addresses.filter (fun address => !isResolved program address) = [] := by
    rw [List.filter_eq_nil_iff]
    intro address hMem
    simp [h address hMem]
  rw [validatePlaceholders, hNone]

namespace Assembler

variable {ss : List Statement} {a : Assembler} {selected : List Nat}

/-- A placeholder that was filled in is a push of something other than zero. -/
theorem Recorded.isResolved (h : Recorded ss a) (hPrefix : a.Prefix ss) {code₁ code₂ : Array Chunk}
    (hLabels : fillPlaceholders (resolveLabel a.labels) a.labelRefs.reverse a.code = .ok code₁)
    (hSlots : fillPlaceholders (resolveSlot selected) a.slotRefs.reverse code₁ = .ok code₂)
    {address : Nat} (hMem : address ∈ a.deferred) : isResolved code₂ address = true := by
  have hLinked := hPrefix.linked hLabels hSlots
  rcases List.mem_append.mp hMem with hLabel | hSlot
  · obtain ⟨⟨i, name⟩, hRef, rfl⟩ := List.mem_map.mp hLabel
    obtain ⟨target, c, hAddress, hEncode, hCell⟩ :=
      hLinked.label i name (hPrefix.labelRefs i name hRef)
    -- the label was defined after the reference, so not at address zero
    have hAfter := h.ahead i name target hRef hAddress
    exact isResolved_of_push hCell hEncode (by omega)
  · obtain ⟨⟨i, slot⟩, hRef, rfl⟩ := List.mem_map.mp hSlot
    obtain ⟨target, c, -, hNe, hEncode, hCell⟩ :=
      hLinked.slot i slot (hPrefix.slotRefs i slot hRef)
    exact isResolved_of_push hCell hEncode hNe

/-- The addresses of the placeholders in ascending order. -/
def placeholders (a : Assembler) : List Nat :=
  stableSort (fun x y => x < y) (a.labelRefs.reverse.map (·.1) ++ a.slotRefs.reverse.map (·.1))

theorem perm_placeholders (a : Assembler) : a.placeholders.Perm a.deferred :=
  (perm_stableSort _ _).trans (((List.reverse_perm _).map _).append ((List.reverse_perm _).map _))

/-- Finishing is filling in, labels before slots. The check for placeholders that are left
passes whenever it is reached. -/
theorem finish_eq (h : Recorded ss a) (hPrefix : a.Prefix ss) :
    a.finish selected = (do
      let code ← fillPlaceholders (resolveLabel a.labels) a.labelRefs.reverse a.code
      let code ← fillPlaceholders (resolveSlot selected) a.slotRefs.reverse code
      return ⟨code.toList, a.labels, a.placeholders⟩) := by
  unfold finish
  dsimp only
  cases hLabels : fillPlaceholders (resolveLabel a.labels) a.labelRefs.reverse a.code with
  | error e => rfl
  | ok code₁ =>
    rw [bind_ok rfl, bind_ok rfl]
    cases hSlots : fillPlaceholders (resolveSlot selected) a.slotRefs.reverse code₁ with
    | error e => rfl
    | ok code₂ =>
      rw [bind_ok rfl, bind_ok rfl, bind_ok]
      · rfl
      · refine validatePlaceholders_eq_ok ?_
        intro address hMem
        exact h.isResolved hPrefix hLabels hSlots (a.perm_placeholders.mem_iff.mp hMem)

/-- The placeholders are the deferred references, in order and without repetition. -/
theorem Recorded.placeholders_spec (h : Recorded ss a) :
    a.placeholders.Pairwise (· < ·) ∧
      ∀ address, address ∈ a.placeholders ↔ Deferred ss address := by
  constructor
  · have hOrder : a.placeholders.Pairwise (· ≤ ·) := by
      refine pairwise_stableSort (r := fun x y : Nat => x ≤ y) (fun _ _ _ => Nat.le_trans) ?_ _
      intro x y
      split
      · rename_i hBefore
        exact Nat.le_of_lt (of_decide_eq_true hBefore)
      · rename_i hBefore
        simpa using hBefore
    have hNodup : a.placeholders.Nodup := a.perm_placeholders.nodup_iff.mpr h.nodup
    refine (hOrder.and hNodup).imp ?_
    rintro x y ⟨hLe, hNe⟩
    exact Nat.lt_of_le_of_ne hLe hNe
  · intro address
    rw [a.perm_placeholders.mem_iff]
    exact h.deferred address

end Assembler

-- ---------------------------------------------------------------------------
-- The program that comes out
-- ---------------------------------------------------------------------------

/-- Every address that is referred to is known in the end and can be pushed. -/
structure Resolvable (ss : List Statement) (selected : List Nat) : Prop where
  label : ∀ name, .pushLabel name ∈ ss → ∃ address, LabelAt ss name address ∧ address < primeCount
  slot : ∀ slot, .pushSlot slot ∈ ss →
    ∃ address, slot.resolve selected = some address ∧ address ≠ 0 ∧ address < primeCount

/-- The program of a single pass that knows every address from the start. -/
def singlePass (linking : Linking) (ss : List Statement) : Except ChunkError (List Chunk) :=
  (cellStatements ss).mapM (Statement.encoding linking)

theorem mapM_eq_ok_of_getElem? {α β ε : Type} {f : α → Except ε β} {xs : List α} {ys : List β}
    (hLength : ys.length = xs.length)
    (h : ∀ (i : Nat) x, xs[i]? = some x → ∃ y, f x = .ok y ∧ ys[i]? = some y) :
    xs.mapM f = .ok ys := by
  induction xs generalizing ys with
  | nil =>
    rw [List.eq_nil_of_length_eq_zero hLength]
    rfl
  | cons x xs ih =>
    cases ys with
    | nil => cases hLength
    | cons y ys =>
      obtain ⟨y', hFirst, hSame⟩ := h 0 x rfl
      cases hSame
      have hRest := ih (Nat.succ.inj hLength) fun i x' hx' => h (i + 1) x' hx'
      rw [List.mapM_cons, hFirst, hRest]
      rfl

theorem Realizes.singlePass {linking : Linking} {ss : List Statement} {program : List Chunk}
    (h : Realizes linking ss program) : singlePass linking ss = .ok program :=
  mapM_eq_ok_of_getElem? h.length h.cells

theorem mem_of_cell {ss : List Statement} {i : Nat} {s : Statement}
    (h : (cellStatements ss)[i]? = some s) : s ∈ ss :=
  List.mem_of_mem_filter (List.mem_of_getElem? h)

theorem exists_cell {ss : List Statement} {s : Statement} (hCell : s.makesCell = true)
    (hMem : s ∈ ss) : ∃ i : Nat, (cellStatements ss)[i]? = some s :=
  List.mem_iff_getElem?.mp (List.mem_filter.mpr ⟨hMem, hCell⟩)

theorem resolveLabel_of_lookup {labels : List (String × Nat)} {name : String} {target : Nat}
    (h : labels.lookup name = some target) : resolveLabel labels name = .ok target := by
  rw [resolveLabel, h]

theorem resolveSlot_of_resolve {selected : List Nat} {slot : SlotRef} {target : Nat}
    (h : slot.resolve selected = some target) (hNe : target ≠ 0) :
    resolveSlot selected slot = .ok target := by
  unfold resolveSlot
  rw [h]
  split
  · rename_i hNone
    cases hNone
  · rename_i hZero
    cases hZero
    exact absurd rfl hNe
  · rename_i found _ hFound
    cases hFound
    rfl

namespace Assembler

variable {ss : List Statement} {a : Assembler} {selected : List Nat}

/-- Both kinds of references resolve exactly if every address that is referred to is known in
the end. -/
theorem Recorded.resolvable_iff (h : Recorded ss a) (hPrefix : a.Prefix ss) :
    Resolvable ss selected ↔
      (∀ ref ∈ a.labelRefs.reverse, ∃ target,
        resolveLabel a.labels ref.2 = .ok target ∧ target < primeCount) ∧
      ∀ ref ∈ a.slotRefs.reverse, ∃ target,
        resolveSlot selected ref.2 = .ok target ∧ target < primeCount := by
  constructor
  · intro hResolvable
    constructor
    · intro ⟨i, name⟩ hRef
      have hCell := hPrefix.labelRefs i name (List.mem_reverse.mp hRef)
      obtain ⟨address, hLabel, hLt⟩ := hResolvable.label name (mem_of_cell hCell)
      exact ⟨address, resolveLabel_of_lookup ((h.labels name address).mpr hLabel), hLt⟩
    · intro ⟨i, slot⟩ hRef
      have hCell := hPrefix.slotRefs i slot (List.mem_reverse.mp hRef)
      obtain ⟨address, hSlot, hNe, hLt⟩ := hResolvable.slot slot (mem_of_cell hCell)
      exact ⟨address, resolveSlot_of_resolve hSlot hNe, hLt⟩
  · rintro ⟨hLabels, hSlots⟩
    constructor
    · intro name hMem
      obtain ⟨i, hCell⟩ := exists_cell rfl hMem
      -- a backward reference was written in the first pass, so its address can be pushed
      rcases hPrefix.cells i _ hCell with ⟨address, c, hAddress, hEncode, -⟩ | hRef
      · exact ⟨address, (h.labels name address).mp hAddress, exists_encodePush_iff.mp ⟨c, hEncode⟩⟩
      · obtain ⟨target, hResolve, hLt⟩ := hLabels (i, name) (List.mem_reverse.mpr hRef)
        exact ⟨target, (h.labels name target).mp (resolveLabel_eq_ok hResolve), hLt⟩
    · intro slot hMem
      obtain ⟨i, hCell⟩ := exists_cell rfl hMem
      have hRef : (i, slot) ∈ a.slotRefs := hPrefix.cells i _ hCell
      obtain ⟨target, hResolve, hLt⟩ := hSlots (i, slot) (List.mem_reverse.mpr hRef)
      obtain ⟨hTarget, hNe⟩ := resolveSlot_eq_ok hResolve
      exact ⟨target, hTarget, hNe, hLt⟩

theorem Recorded.exists_finish_iff (h : Recorded ss a) (hPrefix : a.Prefix ss) :
    (∃ out, a.finish selected = .ok out) ↔ Resolvable ss selected := by
  rw [h.resolvable_iff hPrefix, finish_eq h hPrefix]
  constructor
  · rintro ⟨out, hFinish⟩
    obtain ⟨code₁, hLabels, hRest⟩ := bind_eq_ok hFinish
    obtain ⟨code₂, hSlots, -⟩ := bind_eq_ok hRest
    exact ⟨exists_fillPlaceholders_iff.mp ⟨code₁, hLabels⟩,
      exists_fillPlaceholders_iff.mp ⟨code₂, hSlots⟩⟩
  · rintro ⟨hLabels, hSlots⟩
    obtain ⟨code₁, hFirst⟩ := exists_fillPlaceholders_iff.mpr hLabels
    obtain ⟨code₂, hSecond⟩ := exists_fillPlaceholders_iff.mpr hSlots
    exact ⟨_, (bind_ok hFirst).trans (bind_ok hSecond)⟩

/-- No placeholder is ever left: finishing fails for a reference, or for its encoding. -/
theorem Recorded.finish_ne_unresolved (h : Recorded ss a) (hPrefix : a.Prefix ss)
    (addresses : List Nat) : a.finish selected ≠ .error (.unresolvedPlaceholder addresses) := by
  intro hFinish
  rw [finish_eq h hPrefix] at hFinish
  rcases bind_eq_error hFinish with hLabels | ⟨code₁, -, hRest⟩
  · rcases fillPlaceholders_eq_error hLabels with ⟨name, hResolve⟩ | ⟨cause, hCause⟩
    · unfold resolveLabel at hResolve
      split at hResolve <;> cases hResolve
    · cases hCause
  · rcases bind_eq_error hRest with hSlots | ⟨code₂, -, hOut⟩
    · rcases fillPlaceholders_eq_error hSlots with ⟨slot, hResolve⟩ | ⟨cause, hCause⟩
      · unfold resolveSlot at hResolve
        split at hResolve <;> cases hResolve
      · cases hCause
    · cases hOut

end Assembler

/-- Once every statement was carried out, a program comes out exactly if every reference has an
address that can be pushed, whatever slots are selected. It is the program of a single pass
under the final labels and slots, each label stands for the number of cells before it, the
placeholders are the forward references and the slots in ascending order, and no placeholder is
ever found unresolved. -/
theorem finish_single_pass {ss : List Statement} {a : Assembler}
    (hRun : (Assembler.performAll ss).run .empty = .ok () a) (selected : List Nat) :
    ((∃ out, a.finish selected = .ok out) ↔ Resolvable ss selected) ∧
    (∀ out, a.finish selected = .ok out →
      (∀ name address, out.labels.lookup name = some address ↔ LabelAt ss name address) ∧
      singlePass (.ofLabels out.labels selected) ss = .ok out.program ∧
      out.placeholders.Pairwise (· < ·) ∧
      ∀ address, address ∈ out.placeholders ↔ Deferred ss address) ∧
    ∀ addresses, a.finish selected ≠ .error (.unresolvedPlaceholder addresses) := by
  have hPrefix := Assembler.performAll_prefix hRun
  have hRecorded := Assembler.performAll_recorded hRun
  refine ⟨hRecorded.exists_finish_iff hPrefix, ?_, hRecorded.finish_ne_unresolved hPrefix⟩
  intro out hFinish
  have hProgram := (finish_spec hPrefix hFinish).singlePass
  rw [Assembler.finish_eq hRecorded hPrefix] at hFinish
  obtain ⟨code₁, -, hRest⟩ := bind_eq_ok hFinish
  obtain ⟨code₂, -, hOut⟩ := bind_eq_ok hRest
  cases hOut
  exact ⟨hRecorded.labels, hProgram, hRecorded.placeholders_spec⟩

/-- A loop with a way out and a slot: one reference ahead, one to the slot, and one back to
address zero, which needs no placeholder. -/
theorem finish_single_pass_loop : ∃ ss a out,
    ss = [.label "top", .op .print, .pushLabel "end", .op .jump, .pushSlot .fallback,
      .pushLabel "top", .op .jump, .label "end", .op .halt] ∧
    (Assembler.performAll ss).run .empty = .ok () a ∧ a.finish [2] = .ok out ∧
    out.labels.lookup "end" = some 6 ∧
    singlePass (.ofLabels out.labels [2]) ss = .ok out.program ∧
    1 ∈ out.placeholders ∧ 3 ∈ out.placeholders := by
  let ss : List Statement := [.label "top", .op .print, .pushLabel "end", .op .jump,
    .pushSlot .fallback, .pushLabel "top", .op .jump, .label "end", .op .halt]
  obtain ⟨a, hRun⟩ : ∃ a, (Assembler.performAll ss).run .empty = .ok () a := ⟨_, rfl⟩
  obtain ⟨hSucceeds, hSpec, -⟩ := finish_single_pass hRun [2]
  have hEnd : LabelAt ss "end" 6 := ⟨ss.take 7, _, [.op .halt], rfl, rfl, rfl⟩
  have hTop : LabelAt ss "top" 0 := ⟨[], _, _, rfl, rfl, rfl⟩
  have hResolvable : Resolvable ss [2] := by
    constructor
    · intro name hMem
      obtain rfl | rfl : name = "end" ∨ name = "top" := by simpa [ss] using hMem
      · exact ⟨6, hEnd, by decide⟩
      · exact ⟨0, hTop, by decide⟩
    · intro slot hMem
      obtain rfl : slot = .fallback := by simpa [ss] using hMem
      exact ⟨2, rfl, by decide, by decide⟩
  obtain ⟨out, hFinish⟩ := hSucceeds.mpr hResolvable
  obtain ⟨hLabels, hProgram, -, hPlaceholders⟩ := hSpec out hFinish
  refine ⟨ss, a, out, rfl, hRun, hFinish, (hLabels "end" 6).mpr hEnd, hProgram, ?_, ?_⟩
  · have hAhead : .label "end" ∉ ss.take 2 := by decide
    exact (hPlaceholders 1).mpr ⟨ss.take 2, .pushLabel "end", _, rfl, hAhead, rfl⟩
  · exact (hPlaceholders 3).mpr ⟨ss.take 4, .pushSlot .fallback, _, rfl, trivial, rfl⟩

end FactorMachine
