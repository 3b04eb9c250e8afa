import FactorMachine.Prime.Basic

/-!
# FactorMachine — the catalogue of numbered primes

The primes up to `largestPrime`, octave by octave: octave `k` holds those in
`[2 ^ k, 2 ^ (k + 1))`. An octave is listed only when a question reaches it, and its
listing is kept for the next question.

Two questions are answered from the catalogue:

* `primeAt` — which prime has a given index;
* `indexOf` — which index a given number has, if it is a prime.
-/

namespace FactorMachine

/-- The numbered primes of octave `k`, ascending. -/
def octave (k : Nat) : List Nat :=
  let first := Nat.pow 2 k
  (List.range' first (min first (largestPrime + 1 - first))).filter isPrime

/-- All octaves that hold a numbered prime, ascending. -/
def octaves : List (Thunk (List Nat)) :=
  (List.range 24).map fun k => Thunk.mk fun _ => octave k

/-- The entry at place `i` of consecutive lists. -/
def entryAt : List (Thunk (List Nat)) → Nat → Option Nat
  | [], _ => none
  | block :: rest, i =>
    match block.get[i]? with
    | some p => some p
    | none => entryAt rest (i - block.get.length)

/-- The prime of index `i`. -/
def primeAt (i : Nat) : Except PrimeError Nat :=
  if primeCount ≤ i then .error .limitExceeded
  else match entryAt octaves i with
    | some p => .ok p
    | none => .error .limitExceeded

/-- How many entries of consecutive ascending lists are below `v`. -/
def countBelow (v : Nat) : List (Thunk (List Nat)) → Nat
  | [] => 0
  | block :: rest =>
    match block.get.find? (v ≤ ·) with
    | some _ => (block.get.takeWhile (· < v)).length
    | none => block.get.length + countBelow v rest

/-- The index of `v`, if it is a numbered prime. -/
def indexOf (v : Nat) : Except PrimeError Nat :=
  if largestPrime < v then .error .limitExceeded
  else if isPrime v then .ok (countBelow v octaves)
  else .error (.notFound v)

end FactorMachine
