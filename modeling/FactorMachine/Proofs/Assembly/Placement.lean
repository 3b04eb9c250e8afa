import FactorMachine.Assembly.Assembler
import FactorMachine.Proofs.Chunk.RoundTrip
import FactorMachine.Proofs.Outcome

/-!
# FactorMachine — what an assembled program holds

The assembler works in two passes: while the statements are carried out, a label that is not
defined yet and a slot leave a push of zero behind, and at the end those placeholders are
replaced. The outcome is what a single pass would give that knew every address in advance: the
cell of each statement holds the chunk that the statement stands for under the final
`Linking`, and every label stands for the number of cells before it.

The invariant of the first pass is `Assembler.Prefix`: a cell is either final already or
recorded as a placeholder. The second pass fills in labels and then slots; one such round is
`fillPlaceholders_spec`, and what both make of the cells is `Assembler.Linked`.

## Results

* `perform_cases`     — what carrying out one statement can do.
* `performAll_prefix` — the first pass keeps the invariant.
* `Prefix.linked`     — the second pass replaces every placeholder.
* `finish_spec`       — what an assembled program holds, cell by cell and label by label.
-/

namespace FactorMachine

-- ---------------------------------------------------------------------------
-- Statements and their cells
-- ---------------------------------------------------------------------------

/-- The addresses that labels and slots stand for. -/
structure Linking where
  label : String → Nat
  slot : SlotRef → Nat

namespace Statement

/-- Whether a statement makes a cell. -/
def makesCell : Statement → Bool
  | .label _ => false
  | _ => true

/-- The chunk that a statement stands for once all addresses are known. -/
def encoding (linking : Linking) : Statement → Except ChunkError Chunk
  | .raw chunk => .ok chunk
  | .op opcode => encodeOpcode opcode
  | .push value => encodePush value
  | .data value => encodeData value
  | .label name => encodePush (linking.label name)
  | .pushLabel name => encodePush (linking.label name)
  | .pushSlot slot => encodePush (linking.slot slot)

/-- The record that a statement stands for; a chunk that is given as it is stands for none. -/
def record? (linking : Linking) : Statement → Option Record
  | .raw _ => none
  | .op opcode => some (.ofOpcode opcode)
  | .push value => some (.push value)
  | .data value => some (.data value)
  | .label _ => none
  | .pushLabel name => some (.push (linking.label name))
  | .pushSlot slot => some (.push (linking.slot slot))

theorem encoding_eq {linking : Linking} {s : Statement} {r : Record}
    (h : s.record? linking = some r) : s.encoding linking = encode r := by
  cases s <;> first | cases h; rfl | cases h

end Statement

/-- The linking that a program's labels and the slots chosen for it give. -/
def Linking.ofLabels (labels : List (String × Nat)) (selected : List Nat) : Linking where
  label name := (labels.lookup name).getD 0
  slot slot := (slot.resolve selected).getD 0

/-- The statements that make the cells of a program, in order. -/
def cellStatements (statements : List Statement) : List Statement :=
  statements.filter Statement.makesCell

@[simp] theorem cellStatements_append (xs ys : List Statement) :
    cellStatements (xs ++ ys) = cellStatements xs ++ cellStatements ys :=
  List.filter_append xs ys

namespace Assembler

-- ---------------------------------------------------------------------------
-- One statement
-- ---------------------------------------------------------------------------

/-- A program that grew: what it held, it still holds. -/
structure Extends (a b : Assembler) : Prop where
  size_le : a.code.size ≤ b.code.size
  code : ∀ i, i < a.code.size → b.code[i]? = a.code[i]?
  labels : ∀ name address, a.addressOf name = some address → b.addressOf name = some address
  labelRefs : ∀ ref ∈ a.labelRefs, ref ∈ b.labelRefs
  slotRefs : ∀ ref ∈ a.slotRefs, ref ∈ b.slotRefs

/-- A cell holds what its statement stands for, or is recorded as a placeholder. -/
def Written (a : Assembler) (i : Nat) : Statement → Prop
  | .raw chunk => a.code[i]? = some chunk
  | .op op => ∃ c, encodeOpcode op = .ok c ∧ a.code[i]? = some c
  | .push value => ∃ c, encodePush value = .ok c ∧ a.code[i]? = some c
  | .data value => ∃ c, encodeData value = .ok c ∧ a.code[i]? = some c
  | .label _ => True
  | .pushLabel name =>
    (∃ address c, a.addressOf name = some address ∧ encodePush address = .ok c ∧
      a.code[i]? = some c) ∨ (i, name) ∈ a.labelRefs
  | .pushSlot slot => (i, slot) ∈ a.slotRefs

theorem Written.mono {a b : Assembler} {i : Nat} {s : Statement} (h : a.Written i s)
    (hExtends : a.Extends b) (hi : i < a.code.size) : b.Written i s := by
  have hCode := hExtends.code i hi
  cases s with
  | raw chunk => exact hCode.trans h
  | op op =>
    obtain ⟨c, hEncode, hCell⟩ := h
    exact ⟨c, hEncode, hCode.trans hCell⟩
  | push value =>
    obtain ⟨c, hEncode, hCell⟩ := h
    exact ⟨c, hEncode, hCode.trans hCell⟩
  | data value =>
    obtain ⟨c, hEncode, hCell⟩ := h
    exact ⟨c, hEncode, hCode.trans hCell⟩
  | label name => trivial
  | pushLabel name =>
    rcases h with ⟨address, c, hAddress, hEncode, hCell⟩ | hRef
    · exact .inl ⟨address, c, hExtends.labels name address hAddress, hEncode, hCode.trans hCell⟩
    · exact .inr (hExtends.labelRefs _ hRef)
  | pushSlot slot => exact hExtends.slotRefs _ h

/-- What a statement that refers to no label and no slot has written is final. -/
theorem Written.exists_encoding {a : Assembler} {i : Nat} {s : Statement} (h : a.Written i s)
    (hCell : s.makesCell = true) (hLabel : ∀ name, s ≠ .pushLabel name)
    (hSlot : ∀ slot, s ≠ .pushSlot slot) (linking : Linking) :
    ∃ c, s.encoding linking = .ok c ∧ a.code[i]? = some c := by
  cases s with
  | raw chunk => exact ⟨chunk, rfl, h⟩
  | op opcode => exact h
  | push value => exact h
  | data value => exact h
  | label name => cases hCell
  | pushLabel name => exact absurd rfl (hLabel name)
  | pushSlot slot => exact absurd rfl (hSlot slot)

/-- What has been assembled from the statements so far. -/
structure Prefix (done : List Statement) (a : Assembler) : Prop where
  size : a.code.size = (cellStatements done).length
  labels : ∀ before name after, done = before ++ .label name :: after →
    a.addressOf name = some (cellStatements before).length
  cells : ∀ i s, (cellStatements done)[i]? = some s → a.Written i s
  labelRefs : ∀ i name, (i, name) ∈ a.labelRefs →
    (cellStatements done)[i]? = some (.pushLabel name)
  slotRefs : ∀ i slot, (i, slot) ∈ a.slotRefs →
    (cellStatements done)[i]? = some (.pushSlot slot)

theorem prefix_empty : Prefix [] empty where
  size := rfl
  labels before name after h := by simp at h
  cells i s h := by simp [cellStatements] at h
  labelRefs i name h := by simp [empty] at h
  slotRefs i slot h := by simp [empty] at h

theorem cellStatements_concat (done : List Statement) {s : Statement} (h : s.makesCell = true) :
    cellStatements (done ++ [s]) = cellStatements done ++ [s] := by
  simp [cellStatements, h]

/-- One label or slot at most is recorded on top, and where it stands is its statement. -/
theorem refs_concat {ρ : Type} {toStatement : ρ → Statement} {done : List Statement} {s : Statement}
    {refs refs' : List (Nat × ρ)} (hCell : s.makesCell = true)
    (h : ∀ i r, (i, r) ∈ refs → (cellStatements done)[i]? = some (toStatement r))
    (hRefs : refs' = refs ∨
      ∃ r, s = toStatement r ∧ refs' = ((cellStatements done).length, r) :: refs) :
    ∀ i r, (i, r) ∈ refs' → (cellStatements (done ++ [s]))[i]? = some (toStatement r) := by
  have hKeep : ∀ i r, (i, r) ∈ refs →
      (cellStatements (done ++ [s]))[i]? = some (toStatement r) := by
    intro i r hRef
    obtain ⟨hi, -⟩ := List.getElem?_eq_some_iff.mp (h i r hRef)
    rw [cellStatements_concat done hCell, List.getElem?_append_left hi]
    exact h i r hRef
  intro i r hRef
  rcases hRefs with rfl | ⟨r', rfl, rfl⟩
  · exact hKeep i r hRef
  · rcases List.mem_cons.mp hRef with hNew | hOld
    · rw [Prod.mk.injEq] at hNew
      obtain ⟨rfl, rfl⟩ := hNew
      rw [cellStatements_concat done hCell, List.getElem?_append_right (le_refl _), Nat.sub_self]
      rfl
    · exact hKeep i r hOld

theorem mem_refs_concat {ρ : Type} {P : ρ → Prop} {i : Nat} {refs refs' : List (Nat × ρ)}
    (hRefs : refs' = refs ∨ ∃ r, P r ∧ refs' = (i, r) :: refs) : ∀ ref ∈ refs, ref ∈ refs' := by
  intro ref hRef
  rcases hRefs with rfl | ⟨r, -, rfl⟩
  · exact hRef
  · exact List.mem_cons_of_mem _ hRef

/-- Appending a cell that stands for its statement, or a placeholder for it. -/
theorem Prefix.append {done : List Statement} {a b : Assembler} {s : Statement} (h : Prefix done a)
    (hCell : s.makesCell = true) {c : Chunk} (hCode : b.code = a.code.push c)
    (hLabels : b.labels = a.labels) (hWritten : b.Written a.code.size s)
    (hLabelRefs : b.labelRefs = a.labelRefs ∨
      ∃ name, s = .pushLabel name ∧ b.labelRefs = (a.code.size, name) :: a.labelRefs)
    (hSlotRefs : b.slotRefs = a.slotRefs ∨
      ∃ slot, s = .pushSlot slot ∧ b.slotRefs = (a.code.size, slot) :: a.slotRefs) :
    Prefix (done ++ [s]) b := by
  have hDone := cellStatements_concat done hCell
  have hExtends : a.Extends b :=
    { size_le := by rw [hCode, Array.size_push]; omega
      code := fun i hi => by rw [hCode, Array.getElem?_push_lt hi, Array.getElem?_eq_getElem hi]
      labels := fun name address hAddress => by rw [addressOf, hLabels]; exact hAddress
      labelRefs := mem_refs_concat hLabelRefs
      slotRefs := mem_refs_concat hSlotRefs }
  rw [h.size] at hLabelRefs hSlotRefs
  exact
    { size := by rw [hCode, Array.size_push, h.size, hDone, List.length_append]; rfl
      labels := by
        intro before name after hSplit
        -- the last statement is no label, so the label stands among those before it
        rcases List.eq_nil_or_concat after with rfl | ⟨init, last, rfl⟩
        · have hEnd := (List.append_inj' hSplit rfl).2
          rw [List.cons.injEq] at hEnd
          rw [hEnd.1] at hCell
          cases hCell
        · rw [List.concat_eq_append, ← List.cons_append, ← List.append_assoc] at hSplit
          have hFront := (List.append_inj' hSplit rfl).1
          exact hExtends.labels _ _ (h.labels before name init hFront)
      cells := by
        intro i s' hs'
        -- a cell from before, the new one, or none at all
        rcases Nat.lt_trichotomy i a.code.size with hLt | rfl | hGt
        · have hOld : (cellStatements done)[i]? = some s' := by
            rwa [hDone, List.getElem?_append_left (h.size ▸ hLt)] at hs'
          exact (h.cells i s' hOld).mono hExtends hLt
        · rw [hDone, h.size, List.getElem?_append_right (le_refl _), Nat.sub_self] at hs'
          cases hs'
          exact hWritten
        · obtain ⟨hi, -⟩ := List.getElem?_eq_some_iff.mp hs'
          rw [hDone, List.length_append, ← h.size, List.length_singleton] at hi
          omega
      labelRefs := refs_concat hCell h.labelRefs hLabelRefs
      slotRefs := refs_concat hCell h.slotRefs hSlotRefs }

/-- The same cells with a label at their end. -/
def defined (a : Assembler) (name : String) : Assembler :=
  { a with labels := (name, a.here) :: a.labels.filter (·.1 != name) }

theorem addressOf_defined (a : Assembler) (name : String) :
    (a.defined name).addressOf name = some a.code.size :=
  List.lookup_cons_self

/-- Defining a label leaves the other labels where they are. -/
theorem addressOf_defined_of_ne {name other : String} (hNe : other ≠ name) (a : Assembler) :
    (a.defined name).addressOf other = a.addressOf other := by
  simp only [defined, addressOf, List.lookup_cons, beq_eq_false_iff_ne.mpr hNe]
  induction a.labels with
  | nil => rfl
  | cons entry labels ih =>
    obtain ⟨first, address⟩ := entry
    by_cases hSame : first = name
    · subst hSame
      rw [List.filter_cons_of_neg (by simp)]
      simp only [List.lookup_cons, beq_eq_false_iff_ne.mpr hNe]
      exact ih
    · rw [List.filter_cons_of_pos (by simpa using hSame), List.lookup_cons, List.lookup_cons, ih]

/-- A label that is not defined yet takes no address away. -/
theorem extends_defined {a : Assembler} {name : String} (hFresh : a.addressOf name = none) :
    a.Extends (a.defined name) where
  size_le := le_refl _
  code _ _ := rfl
  labels other address hAddress := by
    have hNe : other ≠ name := by
      rintro rfl
      rw [hFresh] at hAddress
      cases hAddress
    rw [addressOf_defined_of_ne hNe]
    exact hAddress
  labelRefs _ hRef := hRef
  slotRefs _ hRef := hRef

/-- Defining a label that is not defined yet. -/
theorem Prefix.define {done : List Statement} {a : Assembler} {name : String} (h : Prefix done a)
    (hFresh : a.addressOf name = none) : Prefix (done ++ [.label name]) (a.defined name) := by
  have hDone : cellStatements (done ++ [.label name]) = cellStatements done := by
    simp [cellStatements, Statement.makesCell]
  have hExtends := extends_defined hFresh
  exact
    { size := by rw [hDone]; exact h.size
      labels := by
        intro before name' after hSplit
        -- either it is the new label, which is the last statement, or one from before
        rcases List.eq_nil_or_concat after with rfl | ⟨init, last, rfl⟩
        · obtain ⟨rfl, hEnd⟩ := List.append_inj' hSplit rfl
          rw [List.cons.injEq, Statement.label.injEq] at hEnd
          rw [← hEnd.1, addressOf_defined, h.size]
        · rw [List.concat_eq_append, ← List.cons_append, ← List.append_assoc] at hSplit
          have hFront := (List.append_inj' hSplit rfl).1
          exact hExtends.labels _ _ (h.labels before name' init hFront)
      cells := by
        intro i s hs
        rw [hDone] at hs
        obtain ⟨hi, -⟩ := List.getElem?_eq_some_iff.mp hs
        exact (h.cells i s hs).mono hExtends (h.size ▸ hi)
      labelRefs := fun i name' hRef => by rw [hDone]; exact h.labelRefs i name' hRef
      slotRefs := fun i slot hRef => by rw [hDone]; exact h.slotRefs i slot hRef }

-- ---------------------------------------------------------------------------
-- The first pass
-- ---------------------------------------------------------------------------

theorem run_appendEncoded_ok {encoded : Except ChunkError Chunk} {a b : Assembler} {address : Nat}
    (h : (appendEncoded encoded).run a = .ok address b) :
    ∃ c, encoded = .ok c ∧ address = a.code.size ∧ b = { a with code := a.code.push c } := by
  cases encoded with
  | error e => cases h
  | ok c =>
    cases h
    exact ⟨c, rfl, rfl, rfl⟩

/-- Whether carrying out a statement leaves a placeholder. -/
def Defers (a : Assembler) : Statement → Prop
  | .pushLabel name => a.addressOf name = none
  | .pushSlot _ => True
  | _ => False

theorem run_define (name : String) (a : Assembler) :
    (Assembler.define name).run a =
      if (a.addressOf name).isSome then .error (.duplicateLabel name) (a.defined name)
      else .ok a.here (a.defined name) := by
  rw [Assembler.define, run_bind_ok (EStateM.run_get a), run_bind_ok (EStateM.run_set _ _)]
  dsimp only
  split <;> rfl

/-- What a statement that was carried out did: it appended the chunk that it stands for, or a
placeholder that it recorded, or it defined a label. -/
theorem perform_cases {a b : Assembler} {s : Statement} {address : Nat}
    (hRun : (perform s).run a = .ok address b) :
    (∃ c, s.makesCell = true ∧ ¬ a.Defers s ∧ b = { a with code := a.code.push c } ∧
      b.Written a.code.size s) ∨
    (∃ name c, s = .pushLabel name ∧ a.addressOf name = none ∧
      b = { a with code := a.code.push c, labelRefs := (a.code.size, name) :: a.labelRefs }) ∨
    (∃ slot c, s = .pushSlot slot ∧
      b = { a with code := a.code.push c, slotRefs := (a.code.size, slot) :: a.slotRefs }) ∨
    ∃ name, s = .label name ∧ a.addressOf name = none ∧ b = a.defined name := by
  have hNew : ∀ c : Chunk, (a.code.push c)[a.code.size]? = some c := fun c => by simp
  cases s with
  | raw chunk =>
    cases hRun
    exact .inl ⟨chunk, rfl, not_false, rfl, hNew chunk⟩
  | op op =>
    obtain ⟨c, hEncode, -, rfl⟩ := run_appendEncoded_ok hRun
    exact .inl ⟨c, rfl, not_false, rfl, c, hEncode, hNew c⟩
  | push value =>
    obtain ⟨c, hEncode, -, rfl⟩ := run_appendEncoded_ok hRun
    exact .inl ⟨c, rfl, not_false, rfl, c, hEncode, hNew c⟩
  | data value =>
    obtain ⟨c, hEncode, -, rfl⟩ := run_appendEncoded_ok hRun
    exact .inl ⟨c, rfl, not_false, rfl, c, hEncode, hNew c⟩
  | label name =>
    rw [perform, run_define] at hRun
    split at hRun
    · cases hRun
    · rename_i hFresh
      cases hRun
      exact .inr (.inr (.inr ⟨name, rfl, Option.not_isSome_iff_eq_none.mp hFresh, rfl⟩))
  | pushLabel name =>
    have hPush : (perform (.pushLabel name)).run a = _ := run_bind_ok (EStateM.run_get a)
    rw [hPush] at hRun
    cases hAddress : a.addressOf name with
    | some target =>
      -- a backward reference is written at once
      rw [hAddress] at hRun
      obtain ⟨c, hEncode, -, rfl⟩ := run_appendEncoded_ok hRun
      refine .inl ⟨c, rfl, ?_, rfl, .inl ⟨target, c, hAddress, hEncode, hNew c⟩⟩
      intro hNone
      rw [Defers, hAddress] at hNone
      cases hNone
    | none =>
      -- a forward reference leaves a placeholder
      rw [hAddress] at hRun
      obtain ⟨at_, a', hAppend, hRest⟩ := run_bind_eq_ok hRun
      obtain ⟨c, -, rfl, rfl⟩ := run_appendEncoded_ok hAppend
      cases hRest
      exact .inr (.inl ⟨name, c, rfl, hAddress, rfl⟩)
  | pushSlot slot =>
    obtain ⟨at_, a', hAppend, hRest⟩ := run_bind_eq_ok hRun
    obtain ⟨c, -, rfl, rfl⟩ := run_appendEncoded_ok hAppend
    cases hRest
    exact .inr (.inr (.inl ⟨slot, c, rfl, rfl⟩))

/-- Carrying out a statement keeps the invariant. -/
theorem Prefix.perform {done : List Statement} {a b : Assembler} {s : Statement} {address : Nat}
    (h : Prefix done a) (hRun : (perform s).run a = .ok address b) : Prefix (done ++ [s]) b := by
  rcases perform_cases hRun with ⟨c, hCell, -, rfl, hWritten⟩ | ⟨name, c, rfl, -, rfl⟩ |
    ⟨slot, c, rfl, rfl⟩ | ⟨name, rfl, hFresh, rfl⟩
  · exact h.append hCell rfl rfl hWritten (.inl rfl) (.inl rfl)
  · exact h.append rfl rfl rfl (.inr (List.mem_cons_self ..)) (.inr ⟨name, rfl, rfl⟩) (.inl rfl)
  · exact h.append rfl rfl rfl (List.mem_cons_self ..) (.inl rfl) (.inr ⟨slot, rfl, rfl⟩)
  · exact h.define hFresh

theorem Prefix.performAll {done ss : List Statement} {a b : Assembler} (h : Prefix done a)
    (hRun : (Assembler.performAll ss).run a = .ok () b) : Prefix (done ++ ss) b := by
  induction ss generalizing done a with
  | nil =>
    cases hRun
    rwa [List.append_nil]
  | cons s ss ih =>
    obtain ⟨address, a', hFirst, hRest⟩ := run_bind_eq_ok hRun
    have hAll := ih (h.perform hFirst) hRest
    rwa [List.append_assoc] at hAll

/-- What the first pass has assembled. -/
theorem performAll_prefix {ss : List Statement} {a : Assembler}
    (hRun : (Assembler.performAll ss).run .empty = .ok () a) : Prefix ss a :=
  prefix_empty.performAll hRun

end Assembler

-- ---------------------------------------------------------------------------
-- The second pass
-- ---------------------------------------------------------------------------

section Filling

variable {ρ : Type} {resolve : ρ → Except AssemblyError Nat} {code filled : Array Chunk}

/-- The first placeholder is filled before the others. -/
theorem fillPlaceholders_cons (resolve : ρ → Except AssemblyError Nat) (at_ : Nat) (r : ρ)
    (refs : List (Nat × ρ)) (code : Array Chunk) :
    fillPlaceholders resolve ((at_, r) :: refs) code = (do
      let target ← resolve r
      let c ← (encodePush target).mapError .chunk
      fillPlaceholders resolve refs (code.setIfInBounds at_ c)) := by
  rw [fillPlaceholders]
  cases resolve r with
  | error e => rfl
  | ok target =>
    rw [bind_ok rfl]
    dsimp only
    cases encodePush target with
    | error e => rfl
    | ok c => rfl

/-- Filling placeholders changes the cells they stand in, each to a push of its target. -/
theorem fillPlaceholders_spec {refs : List (Nat × ρ)}
    (h : fillPlaceholders resolve refs code = .ok filled)
    (hFunction : ∀ i r r', (i, r) ∈ refs → (i, r') ∈ refs → r' = r) :
    filled.size = code.size ∧
      (∀ i, (∀ r, (i, r) ∉ refs) → filled[i]? = code[i]?) ∧
      (∀ i r, (i, r) ∈ refs → i < code.size →
        ∃ target c, resolve r = .ok target ∧ encodePush target = .ok c ∧ filled[i]? = some c) := by
  -- placeholders are filled from the front, each into the code that those before it left
  induction refs generalizing code with
  | nil =>
    cases h
    exact ⟨rfl, fun _ _ => rfl, fun _ _ hRef => by cases hRef⟩
  | cons ref refs ih =>
    obtain ⟨at_, r⟩ := ref
    rw [fillPlaceholders_cons] at h
    obtain ⟨target, hResolve, h⟩ := bind_eq_ok h
    obtain ⟨c, hEncode, h⟩ := bind_eq_ok h
    obtain ⟨hSize, hSame, hFilled⟩ := ih h fun i r r' hr hr' =>
      hFunction i r r' (List.mem_cons_of_mem _ hr) (List.mem_cons_of_mem _ hr')
    rw [Array.size_setIfInBounds] at hSize hFilled
    refine ⟨hSize, ?_, ?_⟩
    · intro i hNone
      have hNe : at_ ≠ i := by
        rintro rfl
        exact hNone r (List.mem_cons_self ..)
      rw [hSame i fun r' hr' => hNone r' (List.mem_cons_of_mem _ hr'),
        Array.getElem?_setIfInBounds, if_neg hNe]
    · intro i r' hRef hi
      -- a placeholder may be listed twice; what is filled in last is what stays
      by_cases hLater : ∃ r'', (i, r'') ∈ refs
      · obtain ⟨r'', hr''⟩ := hLater
        obtain rfl := hFunction i r' r'' hRef (List.mem_cons_of_mem _ hr'')
        exact hFilled i _ hr'' hi
      · rcases List.mem_cons.mp hRef with hHead | hTail
        · rw [Prod.mk.injEq] at hHead
          obtain ⟨rfl, rfl⟩ := hHead
          refine ⟨target, c, hResolve, mapError_eq_ok hEncode, ?_⟩
          rw [hSame i fun r'' hr'' => hLater ⟨r'', hr''⟩, Array.getElem?_setIfInBounds,
            if_pos rfl, if_pos hi]
        · exact absurd ⟨r', hTail⟩ hLater

/-- Filling in references whose statements are known by their cells. Cells of other statements
stay as they are. -/
theorem fillPlaceholders_cells {toStatement : ρ → Statement}
    (hInjective : ∀ r r', toStatement r = toStatement r' → r = r')
    {cells : List Statement} {refs : List (Nat × ρ)}
    (h : fillPlaceholders resolve refs.reverse code = .ok filled)
    (hRefs : ∀ i r, (i, r) ∈ refs → cells[i]? = some (toStatement r)) :
    filled.size = code.size ∧
      (∀ (i : Nat) s, cells[i]? = some s → (∀ r, s ≠ toStatement r) → filled[i]? = code[i]?) ∧
      (∀ (i : Nat) r, cells[i]? = some (toStatement r) → (i, r) ∉ refs → filled[i]? = code[i]?) ∧
      (∀ (i : Nat) r, (i, r) ∈ refs → i < code.size →
        ∃ target c, resolve r = .ok target ∧ encodePush target = .ok c ∧ filled[i]? = some c) := by
  -- a cell has one statement, so it is the place of one reference at most
  have hOne : ∀ (i : Nat) r r', cells[i]? = some (toStatement r) → (i, r') ∈ refs → r = r' := by
    intro i r r' hCell hRef
    rw [hRefs i r' hRef, Option.some.injEq] at hCell
    exact hInjective r r' hCell.symm
  obtain ⟨hSize, hSame, hFilled⟩ := fillPlaceholders_spec h fun i r r' hr hr' =>
    hOne i r' r (hRefs i r' (List.mem_reverse.mp hr')) (List.mem_reverse.mp hr)
  refine ⟨hSize, ?_, ?_, ?_⟩
  · intro i s hs hNot
    refine hSame i fun r hRef => ?_
    rw [hRefs i r (List.mem_reverse.mp hRef), Option.some.injEq] at hs
    exact hNot r hs.symm
  · intro i r hCell hNone
    refine hSame i fun r' hRef => ?_
    have hRef := List.mem_reverse.mp hRef
    exact hNone (hOne i r r' hCell hRef ▸ hRef)
  · intro i r hRef hi
    exact hFilled i r (List.mem_reverse.mpr hRef) hi

end Filling

/-- A program with a cell for each statement that makes one, which holds what the statement
stands for, and with each label at the cell after it. -/
structure Realizes (linking : Linking) (ss : List Statement) (program : List Chunk) : Prop where
  length : program.length = (cellStatements ss).length
  cells : ∀ (i : Nat) (s : Statement), (cellStatements ss)[i]? = some s →
    ∃ c, s.encoding linking = .ok c ∧ program[i]? = some c
  labels : ∀ before name after, ss = before ++ .label name :: after →
    linking.label name = (cellStatements before).length
  slots : ∀ slot, .pushSlot slot ∈ cellStatements ss → linking.slot slot ≠ 0

/-- A cell holds the chunk of a record. -/
def DecodesTo (cells : Array Chunk) (address : Nat) (r : Record) : Prop :=
  ∃ chunk, cells[address]? = some chunk ∧ decode chunk = .ok r

/-- A program that realizes its statements holds their records. -/
theorem Realizes.decodesTo {linking : Linking} {ss : List Statement} {program : List Chunk}
    (h : Realizes linking ss program) {i : Nat} {s : Statement} {r : Record}
    (hCell : (cellStatements ss)[i]? = some s) (hRecord : s.record? linking = some r) :
    DecodesTo program.toArray i r := by
  obtain ⟨chunk, hEncode, hChunk⟩ := h.cells i s hCell
  rw [Statement.encoding_eq hRecord] at hEncode
  obtain ⟨hWellFormed, rfl⟩ := encode_eq_ok_iff.mp hEncode
  exact ⟨_, by simpa using hChunk, hWellFormed.decode_chunk⟩

theorem resolveLabel_eq_ok {labels : List (String × Nat)} {name : String} {target : Nat}
    (h : resolveLabel labels name = .ok target) : labels.lookup name = some target := by
  unfold resolveLabel at h
  split at h
  · rename_i hLookup
    rw [Except.ok.injEq] at h
    rw [hLookup, h]
  · cases h

theorem resolveSlot_eq_ok {selected : List Nat} {slot : SlotRef} {target : Nat}
    (h : resolveSlot selected slot = .ok target) :
    slot.resolve selected = some target ∧ target ≠ 0 := by
  unfold resolveSlot at h
  split at h
  · cases h
  · cases h
  · rename_i found hNe hResolve
    rw [Except.ok.injEq] at h
    subst h
    refine ⟨hResolve, ?_⟩
    rintro rfl
    exact hNe rfl

theorem finish_parts {a : Assembler} {selected : List Nat} {out : Assembled}
    (h : a.finish selected = .ok out) : ∃ code₁ code₂,
      fillPlaceholders (resolveLabel a.labels) a.labelRefs.reverse a.code = .ok code₁ ∧
      fillPlaceholders (resolveSlot selected) a.slotRefs.reverse code₁ = .ok code₂ ∧
      out.labels = a.labels ∧ out.program = code₂.toList := by
  unfold Assembler.finish at h
  obtain ⟨code₁, hLabels, h⟩ := bind_eq_ok h
  obtain ⟨code₂, hSlots, h⟩ := bind_eq_ok h
  obtain ⟨-, -, h⟩ := bind_eq_ok h
  cases h
  exact ⟨code₁, code₂, hLabels, hSlots, rfl, rfl⟩

/-- What both rounds of filling in make of the cells: those of labels and slots hold pushes of
their addresses, and the others stay as they are. -/
structure Assembler.Linked (ss : List Statement) (a : Assembler) (selected : List Nat)
    (code : Array Chunk) : Prop where
  size : code.size = a.code.size
  kept : ∀ (i : Nat) s, (cellStatements ss)[i]? = some s → (∀ name, s ≠ .pushLabel name) →
    (∀ slot, s ≠ .pushSlot slot) → code[i]? = a.code[i]?
  label : ∀ (i : Nat) name, (cellStatements ss)[i]? = some (.pushLabel name) →
    ∃ target c, a.addressOf name = some target ∧ encodePush target = .ok c ∧ code[i]? = some c
  slot : ∀ (i : Nat) slot, (cellStatements ss)[i]? = some (.pushSlot slot) →
    ∃ target c, slot.resolve selected = some target ∧ target ≠ 0 ∧ encodePush target = .ok c ∧
      code[i]? = some c

theorem Assembler.Prefix.linked {ss : List Statement} {a : Assembler} {selected : List Nat}
    {code₁ code₂ : Array Chunk} (h : a.Prefix ss)
    (hLabels : fillPlaceholders (resolveLabel a.labels) a.labelRefs.reverse a.code = .ok code₁)
    (hSlots : fillPlaceholders (resolveSlot selected) a.slotRefs.reverse code₁ = .ok code₂) :
    a.Linked ss selected code₂ := by
  obtain ⟨hSize₁, hOther₁, hKept₁, hFilled₁⟩ :=
    fillPlaceholders_cells (fun _ _ => Statement.pushLabel.inj) hLabels h.labelRefs
  obtain ⟨hSize₂, hOther₂, -, hFilled₂⟩ :=
    fillPlaceholders_cells (fun _ _ => Statement.pushSlot.inj) hSlots h.slotRefs
  have hLt : ∀ (i : Nat) s, (cellStatements ss)[i]? = some s → i < a.code.size := by
    intro i s hs
    rw [h.size]
    exact (List.getElem?_eq_some_iff.mp hs).1
  constructor
  case size => exact hSize₂.trans hSize₁
  case kept => exact fun i s hs hName hSlot => (hOther₂ i s hs hSlot).trans (hOther₁ i s hs hName)
  case label =>
    intro i name hs
    have hKept₂ : code₂[i]? = code₁[i]? := hOther₂ i _ hs (by simp)
    -- the label was known in the first pass already, or it is filled in now
    by_cases hRef : (i, name) ∈ a.labelRefs
    · obtain ⟨target, c, hResolve, hEncode, hCell⟩ := hFilled₁ i name hRef (hLt i _ hs)
      exact ⟨target, c, resolveLabel_eq_ok hResolve, hEncode, hKept₂.trans hCell⟩
    · obtain ⟨target, c, hAddress, hEncode, hCell⟩ := (h.cells i _ hs).resolve_right hRef
      exact ⟨target, c, hAddress, hEncode, (hKept₂.trans (hKept₁ i name hs hRef)).trans hCell⟩
  case slot =>
    -- a slot's cell is always a placeholder
    intro i slot hs
    obtain ⟨target, c, hResolve, hEncode, hCell⟩ :=
      hFilled₂ i slot (h.cells i _ hs) (hSize₁ ▸ hLt i _ hs)
    obtain ⟨hTarget, hNe⟩ := resolveSlot_eq_ok hResolve
    exact ⟨target, c, hTarget, hNe, hEncode, hCell⟩

/-- An assembled program realizes its statements. -/
theorem finish_spec {ss : List Statement} {a : Assembler} {selected : List Nat} {out : Assembled}
    (hPrefix : a.Prefix ss) (hFinish : a.finish selected = .ok out) :
    Realizes (.ofLabels out.labels selected) ss out.program := by
  obtain ⟨code₁, code₂, hLabels, hSlots, hSameLabels, hProgram⟩ := finish_parts hFinish
  have hLinked := hPrefix.linked hLabels hSlots
  rw [hSameLabels, hProgram]
  constructor
  case length => rw [Array.length_toList, hLinked.size, hPrefix.size]
  case cells =>
    intro i s hs
    rw [Array.getElem?_toList]
    by_cases hLabel : ∃ name, s = .pushLabel name
    · obtain ⟨name, rfl⟩ := hLabel
      obtain ⟨target, c, hAddress, hEncode, hCell⟩ := hLinked.label i name hs
      refine ⟨c, ?_, hCell⟩
      show encodePush ((a.addressOf name).getD 0) = _
      rw [hAddress]
      exact hEncode
    by_cases hSlot : ∃ slot, s = .pushSlot slot
    · obtain ⟨slot, rfl⟩ := hSlot
      obtain ⟨target, c, hTarget, -, hEncode, hCell⟩ := hLinked.slot i slot hs
      refine ⟨c, ?_, hCell⟩
      show encodePush ((slot.resolve selected).getD 0) = _
      rw [hTarget]
      exact hEncode
    have hName := not_exists.mp hLabel
    have hNone := not_exists.mp hSlot
    obtain ⟨-, hCell⟩ := List.mem_filter.mp (List.mem_of_getElem? hs)
    rw [hLinked.kept i s hs hName hNone]
    exact (hPrefix.cells i s hs).exists_encoding hCell hName hNone _
  case labels =>
    intro before name after hSplit
    show (a.addressOf name).getD 0 = _
    rw [hPrefix.labels before name after hSplit]
    rfl
  case slots =>
    intro slot hMem
    obtain ⟨i, hs⟩ := List.mem_iff_getElem?.mp hMem
    obtain ⟨target, c, hTarget, hNe, -, -⟩ := hLinked.slot i slot hs
    show (slot.resolve selected).getD 0 ≠ 0
    rw [hTarget]
    exact hNe

end FactorMachine
