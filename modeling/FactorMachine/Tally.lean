/-!
# FactorMachine — tallies

A tally counts how often each key was met. Its entries are in the order of first meeting,
and only keys that were met have one.
-/

namespace FactorMachine

/-- The keys that were met, each with its count. -/
abbrev Tally (κ : Type) := List (κ × Nat)

namespace Tally

variable {κ : Type} [DecidableEq κ]

/-- Counts one more meeting of `key`. -/
def bump (key : κ) : Tally κ → Tally κ
  | [] => [(key, 1)]
  | (k, n) :: rest => if k = key then (k, n + 1) :: rest else (k, n) :: bump key rest

/-- How often `key` was met. -/
def count (key : κ) : Tally κ → Nat
  | [] => 0
  | (k, n) :: rest => if k = key then n else count key rest

/-- The tally of a list. -/
def ofList (keys : List κ) : Tally κ := keys.foldl (fun tally key => bump key tally) []

end Tally

end FactorMachine
