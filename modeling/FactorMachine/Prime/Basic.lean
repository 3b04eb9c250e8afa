/-!
# FactorMachine — primes by trial division

Primes are numbered from zero in ascending order (`2` has index `0`, `3` has index `1`,
`5` has index `2`, …) and every other module speaks of a prime through its index. This one
holds the primality test, the two limits of the numbering and the ways a request about
primes can fail.

The test divides by `2` and by the odd numbers up to the square root. Its recursion is on a
counter that starts at the tested number, so that it also evaluates in the kernel.
-/

namespace FactorMachine

/-- How many primes are numbered: the indices are the numbers below this one. -/
def primeCount : Nat := Nat.pow 2 20

/-- The prime of index `primeCount - 1`, the largest that is numbered. -/
def largestPrime : Nat := 16290047

/-- Why a question about primes has no answer. -/
inductive PrimeError where
  /-- The number lies within the numbered range but is no prime. -/
  | notFound (value : Nat)
  /-- Zero has no factorization. -/
  | invalidInput
  /-- The answer would lie beyond the numbered primes. -/
  | limitExceeded
  deriving DecidableEq, Repr

/-- The wording of each failure. -/
def PrimeError.message : PrimeError → String
  | .notFound value => s!"{value} is not a prime"
  | .invalidInput => "cannot factorize values below 1"
  | .limitExceeded => s!"prime table limit of {primeCount} entries exceeded"

/-- No number among `d`, `d + 2`, `d + 4`, … up to the square root of `n` divides `n`.
The counter bounds how many of them are tried. -/
def undividedFrom (n : Nat) : (counter d : Nat) → Bool
  | 0, _ => true
  | counter + 1, d =>
    if n < d * d then true
    else if n % d = 0 then false
    else undividedFrom n counter (d + 2)

/-- Whether `n` is a prime. -/
def isPrime (n : Nat) : Bool :=
  if n < 2 then false
  else if n % 2 = 0 then n == 2
  else undividedFrom n n 3

end FactorMachine
