import FactorMachine.Prime.Basic

/-!
# FactorMachine — a growing table of primes

A `PrimeTable` holds the first few primes and grows on request, by searching upward from its
largest entry with a test that divides by its own entries only. Nothing is ever removed, so
an index that was handed out once keeps its meaning.

Beside the primes there is a map from each prime to its index, which is written separately
whenever a prime is added. A prime is looked for in the map alone.

A question put to a table that others may grow meanwhile has two phases: it first looks at
the table as it was `seen`, and only if that does not settle it grows the table as it then
is. The answers of `PrimeTable.primeAt` and `PrimeTable.indexOf` do not depend on either
table.
-/

namespace FactorMachine

/-- The first primes, with a way back from a prime to its index. -/
structure PrimeTable where
  /-- The primes in ascending order. -/
  primes : Array Nat
  /-- Each prime with its index, latest first. An earlier pair of the same prime is hidden. -/
  positions : List (Nat × Nat)
  deriving DecidableEq, Repr

namespace PrimeTable

/-- The table that every other one grows from. -/
def initial : PrimeTable := ⟨#[2, 3], [(3, 1), (2, 0)]⟩

def size (t : PrimeTable) : Nat := t.primes.size

/-- The prime at an index that the table already reaches. -/
def get? (t : PrimeTable) (i : Nat) : Option Nat := t.primes[i]?

/-- The index of a prime that the table already holds. -/
def position? (t : PrimeTable) (v : Nat) : Option Nat := t.positions.lookup v

def largest (t : PrimeTable) : Nat := t.primes.back?.getD 2

-- ---------------------------------------------------------------------------
-- Growth
-- ---------------------------------------------------------------------------

/-- No entry from place `i` on whose square is at most `c` divides `c`. The counter bounds
how many entries are looked at. -/
def undividedBy (t : PrimeTable) (c : Nat) : (counter i : Nat) → Bool
  | 0, _ => true
  | counter + 1, i =>
    match t.primes[i]? with
    | none => true
    | some p =>
      if c < p * p then true
      else if c % p = 0 then false
      else undividedBy t c counter (i + 1)

/-- The first of `c`, `c + 2`, `c + 4`, … that no entry divides. -/
def searchFrom (t : PrimeTable) : (counter c : Nat) → Nat
  | 0, c => c
  | counter + 1, c => if t.undividedBy c t.size 0 then c else searchFrom t counter (c + 2)

/-- Adds the next prime. It lies below twice the largest entry, which bounds the search. -/
def pushNext (t : PrimeTable) : PrimeTable :=
  let next := t.searchFrom t.largest (t.largest + 2)
  { primes := t.primes.push next
    positions := (next, t.size) :: t.positions }

/-- Adds the next prime `n` times. -/
def pushNexts : Nat → PrimeTable → PrimeTable
  | 0, t => t
  | n + 1, t => pushNexts n t.pushNext

/-- Adds primes until one is at least `v`, as long as there is room. -/
def pushUntil (v : Nat) : (room : Nat) → PrimeTable → PrimeTable
  | 0, t => t
  | room + 1, t => if t.largest < v then pushUntil v room t.pushNext else t

/-- A question put to a table: it may fail, and either way the table may have grown. -/
abbrev Query := EStateM PrimeError PrimeTable

/-- Grows the table until it reaches past `index`. -/
def extendToIndex (index : Nat) : Query Unit := do
  if primeCount ≤ index then throw .limitExceeded
  modify fun t => t.pushNexts (index + 1 - t.size)

/-- Grows the table until its largest entry is at least `v`. -/
def extendToValue (v : Nat) : Query Unit := do
  if largestPrime < v then throw .limitExceeded
  modify fun t => t.pushUntil v (primeCount - t.size)
  if (← get).largest < v then throw .limitExceeded

-- ---------------------------------------------------------------------------
-- Questions
-- ---------------------------------------------------------------------------

/-- The prime of index `i`, for a caller that has `seen` an earlier state of the table. -/
def primeAt (seen : PrimeTable) (i : Nat) : Query Nat :=
  match seen.get? i with
  | some p => pure p
  | none => do
    extendToIndex i
    match (← get).get? i with
    | some p => pure p
    | none => throw .limitExceeded

/-- The index of `v`, for a caller that has `seen` an earlier state of the table. -/
def indexOf (seen : PrimeTable) (v : Nat) : Query Nat :=
  match seen.position? v with
  | some i => pure i
  | none => do
    if v ≤ seen.largest then throw (.notFound v)
    extendToValue v
    match (← get).position? v with
    | some i => pure i
    | none => throw (.notFound v)

end PrimeTable

end FactorMachine
