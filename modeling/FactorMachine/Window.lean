/-!
# FactorMachine — a bounded window on a sequence

A `Window` keeps the last few of the elements pushed into it, at least one. `toList` shows
them oldest first. The older part is held in order and the newer part in reverse, so that a
push takes constant time on average.
-/

namespace FactorMachine

structure Window (α : Type) where
  /-- The most elements that are kept. -/
  limit : Nat
  /-- The older elements, oldest first. -/
  older : List α
  /-- The newer elements, newest first. -/
  newer : List α
  /-- How many elements are kept. -/
  size : Nat
  deriving DecidableEq, Repr

namespace Window

variable {α : Type}

/-- A window without elements. A limit of zero counts as one. -/
def empty (limit : Nat) : Window α := ⟨max limit 1, [], [], 0⟩

/-- The elements that are kept, oldest first. -/
def toList (w : Window α) : List α := w.older ++ w.newer.reverse

/-- Forgets the oldest element. -/
def dropOldest (w : Window α) : Window α :=
  match w.older with
  | _ :: older => { w with older, size := w.size - 1 }
  | [] => { w with older := w.newer.reverse.drop 1, newer := [], size := w.size - 1 }

/-- Appends an element, and forgets the oldest one if the window was full. -/
def push (w : Window α) (a : α) : Window α :=
  let w := if w.size = w.limit then w.dropOldest else w
  { w with newer := a :: w.newer, size := w.size + 1 }

end Window

end FactorMachine
