import FactorMachine.Window
import Mathlib.Data.List.DropRight

/-!
# FactorMachine — what a window shows

A window holds its elements in two lists and counts them, so that a push is cheap. What it shows is
simple: of all the elements that were pushed, the last ones, as many as its limit allows.

## Results

* `Window.Shows.push`  — an element more.
* `Window.Shows.pushAll` — a row of elements.
-/

namespace FactorMachine.Window

variable {α : Type} {w : Window α} {limit : Nat} {all : List α}

/-- A window with a limit shows the last of all these elements. -/
structure Shows (w : Window α) (limit : Nat) (all : List α) : Prop where
  bound : w.limit = max limit 1
  size : w.size = w.toList.length
  latest : w.toList = all.rtake (max limit 1)

theorem shows_empty (limit : Nat) : (empty limit : Window α).Shows limit [] := by
  refine ⟨rfl, rfl, ?_⟩
  rw [List.rtake_nil]
  rfl

/-- The oldest element is the first one that is shown. -/
theorem toList_dropOldest (w : Window α) : w.dropOldest.toList = w.toList.drop 1 := by
  obtain ⟨limit, older, newer, size⟩ := w
  cases older <;> simp [dropOldest, toList]

theorem toList_push (w : Window α) (a : α) :
    (w.push a).toList = (if w.size = w.limit then w.toList.drop 1 else w.toList) ++ [a] := by
  rw [← toList_dropOldest, ← apply_ite toList]
  simp [push, toList]

theorem size_push (w : Window α) (a : α) :
    (w.push a).size = (if w.size = w.limit then w.size - 1 else w.size) + 1 := by
  have hSize : w.dropOldest.size = w.size - 1 := by
    unfold dropOldest
    split <;> rfl
  rw [← hSize, ← apply_ite Window.size]
  rfl

theorem limit_push (w : Window α) (a : α) : (w.push a).limit = w.limit := by
  have hLimit : w.dropOldest.limit = w.limit := by
    unfold dropOldest
    split <;> rfl
  show (if w.size = w.limit then w.dropOldest else w).limit = w.limit
  rw [apply_ite Window.limit, hLimit, ite_self]

/-- **An element more.** The window drops its oldest element only if there would be too many. -/
theorem Shows.push (h : w.Shows limit all) (a : α) : (w.push a).Shows limit (all ++ [a]) := by
  have hLength : w.size = min all.length (max limit 1) := by
    rw [h.size, h.latest, List.rtake, List.length_drop]
    omega
  refine ⟨(limit_push w a).trans h.bound, ?_, ?_⟩
  · rw [size_push, toList_push, List.length_append, apply_ite List.length, List.length_drop,
      ← h.size]
    rfl
  · rw [toList_push, h.latest, h.bound, List.rtake, List.rtake, List.length_append,
      List.length_singleton]
    by_cases hFull : w.size = max limit 1
    · have hDrop : all.length + 1 - max limit 1 = all.length - max limit 1 + 1 := by omega
      rw [if_pos hFull, List.drop_drop, hDrop, List.drop_append_of_le_length (by omega)]
    · have hDrop : all.length - max limit 1 = 0 := by omega
      have hDrop' : all.length + 1 - max limit 1 = 0 := by omega
      rw [if_neg hFull, hDrop, hDrop', List.drop_zero, List.drop_zero]

theorem Shows.pushAll (h : w.Shows limit all) (as : List α) :
    (as.foldl Window.push w).Shows limit (all ++ as) := by
  induction as generalizing w all with
  | nil => simpa using h
  | cons a as ih =>
    rw [List.append_cons]
    exact ih (h.push a)

end FactorMachine.Window
