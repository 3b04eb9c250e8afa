/-!
# FactorMachine — stable sorting

Insertion into a sorted list, in front of the elements that are neither before nor after the
new one, and the stable sort that comes from it. Both recurse on the list alone.
-/

namespace FactorMachine

variable {α : Type}

/-- Inserts `a` in front of the first element that is not `before` it. -/
def insertSorted (before : α → α → Bool) (a : α) : List α → List α
  | [] => [a]
  | b :: rest => if before b a then b :: insertSorted before a rest else a :: b :: rest

/-- The elements in ascending order; those that are not `before` each other stay as they
were. -/
def stableSort (before : α → α → Bool) (xs : List α) : List α :=
  xs.foldr (insertSorted before) []

end FactorMachine
