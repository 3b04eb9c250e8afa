/-!
# FactorMachine — words

The values on the operand stack: signed integers of 128 bits.
-/

namespace FactorMachine

abbrev Word := Int

namespace Word

/-- Words lie in `[-bound, bound)`. -/
def bound : Nat := Nat.pow 2 127

/-- The greatest word. -/
def greatest : Word := bound - 1

/-- A value as a word, if it is one. -/
def ofInt? (v : Int) : Option Word :=
  if -(bound : Int) ≤ v ∧ v < bound then some v else none

/-- A word as a natural number below `limit`, if it is one. -/
def toNatBelow? (limit : Nat) (v : Word) : Option Nat :=
  if 0 ≤ v ∧ v < limit then some v.toNat else none

end Word

end FactorMachine
