import FactorMachine.Prime.Catalogue

/-!
# FactorMachine — factorization by the numbered primes

`factorize` divides a number by the numbered primes in ascending order. Once the square of
the next prime exceeds what remains, the remainder is `1` or itself a prime, and it is
accepted if it is still a numbered one.
-/

namespace FactorMachine

/-- Divides `p` out of `n`: the exponent of `p` and the cofactor. The counter bounds the
number of divisions; `n` itself is always enough. -/
def divideOut (p : Nat) : (counter n : Nat) → Nat × Nat
  | 0, n => (0, n)
  | counter + 1, n =>
    if n % p = 0 then
      let (e, cofactor) := divideOut p counter (n / p)
      (e + 1, cofactor)
    else (0, n)

/-- A trial division on its way: what remains to be divided, the primes found so far with
their exponents (latest first), and whether a square has passed the remainder. -/
structure TrialDivision where
  remaining : Nat
  found : List (Nat × Nat)
  settled : Bool

/-- A remainder of `1` needs no further prime. -/
def TrialDivision.start (n : Nat) : TrialDivision := ⟨n, [], n ≤ 1⟩

/-- Tries one prime. -/
def TrialDivision.divideBy (t : TrialDivision) (p : Nat) : TrialDivision :=
  if t.remaining < p * p then { t with settled := true }
  else if t.remaining % p = 0 then
    let (e, cofactor) := divideOut p t.remaining t.remaining
    ⟨cofactor, (p, e) :: t.found, cofactor ≤ 1⟩
  else t

/-- Tries ascending primes until the division is settled. -/
def TrialDivision.divideByAll : List Nat → TrialDivision → TrialDivision
  | [], t => t
  | p :: ps, t => if t.settled then t else divideByAll ps (t.divideBy p)

/-- Tries consecutive lists of primes, opening a list only if the ones before it did not
settle the division. -/
def TrialDivision.divideByBlocks :
    List (Thunk (List Nat)) → TrialDivision → TrialDivision
  | [], t => t
  | block :: rest, t =>
    if t.settled then t else divideByBlocks rest (t.divideByAll block.get)

/-- The factorization that a trial division arrived at. -/
def TrialDivision.factors (t : TrialDivision) : Except PrimeError (List (Nat × Nat)) :=
  if !t.settled then .error .limitExceeded
  else if t.remaining ≤ 1 then .ok t.found.reverse
  else if largestPrime < t.remaining then .error .limitExceeded
  else .ok ((t.remaining, 1) :: t.found).reverse

/-- The primes that divide `n`, ascending, each with its exponent. -/
def factorize (n : Nat) : Except PrimeError (List (Nat × Nat)) :=
  if n = 0 then .error .invalidInput
  else ((TrialDivision.start n).divideByBlocks octaves).factors

end FactorMachine
