import FactorMachine.Sorting
import Mathlib.Data.List.Perm.Basic
import Mathlib.Order.Lattice

/-!
# FactorMachine — inserted elements stay in order

Inserting adds one element and loses none, and where the comparison decides the order against
every element that is there, the list stays in order. A stable sort is one insertion for each
element, so the same holds of it.

## Results

* `perm_insertSorted`, `perm_stableSort` — no element is lost and none appears.
* `pairwise_insertSorted`, `pairwise_stableSort` — the order of what comes out.
* `sorted_stableSort`, `strictly_sorted_stableSort` — in order of keys that the comparison compares.
* `erase_insertSorted` — a new element taken out again leaves the list as it was.
* `insertSorted_eq_append` — an element that all others are before goes to the end.
* `filter_stableSort` — elements that are not before each other stay as they were.
* `eq_of_pairwise_of_filter` — a list in order of its keys is told by its elements of each key.
-/

namespace FactorMachine

variable {α : Type} {before : α → α → Bool}

theorem perm_insertSorted (before : α → α → Bool) (a : α) (xs : List α) :
    (insertSorted before a xs).Perm (a :: xs) := by
  induction xs with
  | nil => exact .refl _
  | cons b rest ih =>
    unfold insertSorted
    split
    · exact (ih.cons b).trans (.swap a b rest)
    · exact .refl _

theorem mem_insertSorted {a x : α} {xs : List α} :
    x ∈ insertSorted before a xs ↔ x = a ∨ x ∈ xs := by
  rw [(perm_insertSorted before a xs).mem_iff, List.mem_cons]

/-- A list in order stays in order if the comparison says on which side of the new element
each of the others belongs. -/
theorem pairwise_insertSorted {r : α → α → Prop} (hTrans : ∀ x y z, r x y → r y z → r x z)
    {a : α} {xs : List α} (hOrder : xs.Pairwise r)
    (hSide : ∀ b ∈ xs, if before b a then r b a else r a b) :
    (insertSorted before a xs).Pairwise r := by
  induction xs with
  | nil => exact List.pairwise_singleton _ _
  | cons b rest ih =>
    obtain ⟨hHead, hRest⟩ := List.pairwise_cons.mp hOrder
    obtain ⟨hFirst, hOthers⟩ := List.forall_mem_cons.mp hSide
    unfold insertSorted
    split
    · rename_i hBefore
      rw [if_pos hBefore] at hFirst
      refine List.pairwise_cons.mpr ⟨?_, ih hRest hOthers⟩
      intro x hx
      rcases mem_insertSorted.mp hx with rfl | hx
      · exact hFirst
      · exact hHead x hx
    · rename_i hBefore
      rw [if_neg hBefore] at hFirst
      refine List.pairwise_cons.mpr ⟨?_, hOrder⟩
      intro x hx
      -- what follows the first element is beyond the new one as well
      rcases List.mem_cons.mp hx with rfl | hx
      · exact hFirst
      · exact hTrans a b x hFirst (hHead x hx)

/-- Taking a new element out again leaves the list as it was. -/
theorem erase_insertSorted [DecidableEq α] {a : α} {xs : List α} (hNew : a ∉ xs) :
    (insertSorted before a xs).erase a = xs := by
  induction xs with
  | nil => simp [insertSorted]
  | cons b rest ih =>
    rw [List.mem_cons, not_or] at hNew
    obtain ⟨hNe, hRest⟩ := hNew
    unfold insertSorted
    split
    · rw [List.erase_cons_tail (by simpa using Ne.symm hNe), ih hRest]
    · rw [List.erase_cons_head]

/-- An element that all others are before goes to the end. -/
theorem insertSorted_eq_append {a : α} {xs : List α} (hBefore : ∀ b ∈ xs, before b a = true) :
    insertSorted before a xs = xs ++ [a] := by
  induction xs with
  | nil => rfl
  | cons b rest ih =>
    obtain ⟨hHead, hRest⟩ := List.forall_mem_cons.mp hBefore
    rw [insertSorted, if_pos hHead, ih hRest, List.cons_append]

theorem perm_stableSort (before : α → α → Bool) (xs : List α) :
    (stableSort before xs).Perm xs := by
  induction xs with
  | nil => exact .refl _
  | cons a rest ih => exact (perm_insertSorted before a _).trans (ih.cons a)

/-- A sorted list is in order if the comparison decides the order of any two elements, given how
they stood before. -/
theorem pairwise_stableSort_of_pairwise {r s : α → α → Prop}
    (hTrans : ∀ x y z, r x y → r y z → r x z)
    (hSide : ∀ a b, s a b → if before b a then r b a else r a b) {xs : List α}
    (hStood : xs.Pairwise s) : (stableSort before xs).Pairwise r := by
  induction xs with
  | nil => exact .nil
  | cons a rest ih =>
    obtain ⟨hHead, hRest⟩ := List.pairwise_cons.mp hStood
    refine pairwise_insertSorted hTrans (ih hRest) fun b hb => hSide a b (hHead b ?_)
    exact (perm_stableSort before rest).mem_iff.mp hb

theorem pairwise_stableSort {r : α → α → Prop} (hTrans : ∀ x y z, r x y → r y z → r x z)
    (hSide : ∀ a b, if before b a then r b a else r a b) (xs : List α) :
    (stableSort before xs).Pairwise r :=
  pairwise_stableSort_of_pairwise (s := fun _ _ => True) hTrans (fun a b _ => hSide a b)
    (List.pairwise_of_forall fun _ _ => trivial)

section Keys

variable {β : Type} [LinearOrder β] {key : α → β}
  (hKey : ∀ a b, before a b = true ↔ key a < key b)
include hKey

/-- Where the comparison compares keys, a sorted list is in order of them. -/
theorem sorted_stableSort (xs : List α) :
    (stableSort before xs).Pairwise fun a b => key a ≤ key b := by
  refine pairwise_stableSort (r := fun a b => key a ≤ key b) (fun _ _ _ => le_trans) ?_ xs
  intro a b
  split
  · rename_i hBefore
    exact le_of_lt ((hKey b a).mp hBefore)
  · rename_i hBefore
    exact not_lt.mp fun hLt => hBefore ((hKey b a).mpr hLt)

/-- Different keys are in strict order. -/
theorem strictly_sorted_stableSort {xs : List α} (hDistinct : (xs.map key).Nodup) :
    (stableSort before xs).Pairwise fun a b => key a < key b := by
  have hApart : ((stableSort before xs).map key).Nodup :=
    (((perm_stableSort before xs).map key).nodup_iff).mpr hDistinct
  have hBoth := (sorted_stableSort hKey xs).and (List.pairwise_map.mp hApart)
  exact hBoth.imp fun hKeys => lt_of_le_of_ne hKeys.1 hKeys.2

end Keys

-- ---------------------------------------------------------------------------
-- Stability
-- ---------------------------------------------------------------------------

section Stability

variable {a : α} {xs ys : List α} {p : α → Bool}

/-- A new element comes first among those that are not before it. -/
theorem filter_insertSorted_of_pos (ha : p a = true) (hTies : ∀ b, p b = true → before b a = false) :
    (insertSorted before a xs).filter p = a :: xs.filter p := by
  induction xs with
  | nil => exact List.filter_cons_of_pos ha
  | cons b rest ih =>
    unfold insertSorted
    split
    · rename_i hBefore
      have hb : ¬ p b = true := by
        intro hb
        rw [hTies b hb] at hBefore
        cases hBefore
      rw [List.filter_cons_of_neg hb, List.filter_cons_of_neg hb, ih]
    · exact List.filter_cons_of_pos ha

theorem filter_insertSorted_of_neg (ha : ¬ p a = true) :
    (insertSorted before a xs).filter p = xs.filter p := by
  induction xs with
  | nil => exact List.filter_cons_of_neg ha
  | cons b rest ih =>
    unfold insertSorted
    split
    · rw [List.filter_cons, List.filter_cons, ih]
    · exact List.filter_cons_of_neg ha

/-- Elements that are not before each other stay in the order that they had. -/
theorem filter_stableSort (hTies : ∀ a b, p a = true → p b = true → before a b = false)
    (xs : List α) : (stableSort before xs).filter p = xs.filter p := by
  induction xs with
  | nil => rfl
  | cons a rest ih =>
    have hInsert : stableSort before (a :: rest) =
        insertSorted before a (stableSort before rest) := rfl
    rw [hInsert]
    by_cases ha : p a = true
    · rw [filter_insertSorted_of_pos ha fun b hb => hTies b a hb ha, ih,
        List.filter_cons_of_pos ha]
    · rw [filter_insertSorted_of_neg ha, ih, List.filter_cons_of_neg ha]

/-- A list has the elements that it has for each key. -/
theorem mem_iff_of_filter {key : α → Nat}
    (hSame : ∀ k, xs.filter (fun a => key a == k) = ys.filter fun a => key a == k) :
    a ∈ xs ↔ a ∈ ys := by
  have hKey : a ∈ xs.filter (fun b => key b == key a) ↔ a ∈ ys.filter fun b => key b == key a := by
    rw [hSame]
  simpa using hKey

/-- Two lists in order of their keys are the same if their elements of each key are. -/
theorem eq_of_pairwise_of_filter {key : α → Nat} (hx : xs.Pairwise fun a b => key a ≤ key b)
    (hy : ys.Pairwise fun a b => key a ≤ key b)
    (hSame : ∀ k, xs.filter (fun a => key a == k) = ys.filter fun a => key a == k) : xs = ys := by
  induction xs generalizing ys with
  | nil =>
    cases ys with
    | nil => rfl
    | cons b ys => cases (mem_iff_of_filter hSame).mpr List.mem_cons_self
  | cons a xs ih =>
    cases ys with
    | nil => cases (mem_iff_of_filter hSame).mp List.mem_cons_self
    | cons b ys =>
      obtain ⟨hFirstX, hRestX⟩ := List.pairwise_cons.mp hx
      obtain ⟨hFirstY, hRestY⟩ := List.pairwise_cons.mp hy
      -- each head is in the other list, so neither has the smaller key
      have hBelow : key a ≤ key b := by
        rcases List.mem_cons.mp ((mem_iff_of_filter hSame).mpr List.mem_cons_self) with rfl | hb
        · exact Nat.le_refl _
        · exact hFirstX b hb
      have hAbove : key b ≤ key a := by
        rcases List.mem_cons.mp ((mem_iff_of_filter hSame).mp List.mem_cons_self) with rfl | ha
        · exact Nat.le_refl _
        · exact hFirstY a ha
      have hKey : key b = key a := Nat.le_antisymm hAbove hBelow
      have hHeads := hSame (key a)
      rw [List.filter_cons, List.filter_cons, if_pos (beq_self_eq_true _),
        if_pos (beq_iff_eq.mpr hKey)] at hHeads
      obtain ⟨rfl, -⟩ := List.cons.inj hHeads
      refine congrArg (a :: ·) (ih hRestX hRestY fun k => ?_)
      have hk := hSame k
      rw [List.filter_cons, List.filter_cons] at hk
      split at hk
      · exact (List.cons.inj hk).2
      · exact hk

end Stability

end FactorMachine
