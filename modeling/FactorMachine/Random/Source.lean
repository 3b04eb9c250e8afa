/-!
# FactorMachine — sources of random numbers

Whoever draws numbers is written for any source: a state with a function that draws a number
below a bound and gives the next state. What is proved about them holds for every source,
hence for every sequence of draws within the bounds.
-/

namespace FactorMachine

/-- A state from which numbers below a bound are drawn. The width says how many random bits
a draw may use at a time; it matters only to which number comes out. -/
class RandomSource (σ : Type) where
  draw : (width bound : Nat) → σ → Nat × σ
  draw_lt : ∀ (width bound : Nat) (s : σ), 0 < bound → (draw width bound s).1 < bound

/-- The source that goes through a given list of numbers, each reduced below its bound, and
then draws zeros. -/
instance : RandomSource (List Nat) where
  draw _ bound
    | [] => (0, [])
    | n :: rest => (n % bound, rest)
  draw_lt _ _ s h := by
    cases s with
    | nil => exact h
    | cons n rest => exact Nat.mod_lt n h

end FactorMachine
