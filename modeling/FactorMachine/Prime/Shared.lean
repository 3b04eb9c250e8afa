import FactorMachine.Prime.Factorization
import FactorMachine.Prime.Table

/-!
# FactorMachine — one table of primes for many callers

All callers share one table. What a caller does is an `Inquiry`: a question to the table, then
another that may depend on the answer, until its request is answered. Looking at the table and
acting on what was seen are two moments, and anything may happen to the table in between: other
callers make requests, look and act. A `Shared` table with its callers goes from one such moment
to the next by a `Shared.Step`.
-/

namespace FactorMachine.PrimeTable

/-- A question that is put to the table. -/
inductive Question where
  | primeAt (i : Nat)
  | indexOf (v : Nat)
  /-- Asks for a table whose largest entry is at least `v`. The answer is `v`. -/
  | reach (v : Nat)
  deriving DecidableEq, Repr

def Question.query (seen : PrimeTable) : Question → Query Nat
  | primeAt i => PrimeTable.primeAt seen i
  | indexOf v => PrimeTable.indexOf seen v
  | reach v => do
    extendToValue v
    return v

/-- What a caller has yet to do. A question that fails ends it. -/
inductive Inquiry (α : Type) where
  | done (answer : Except PrimeError α)
  | ask (question : Question) (next : Nat → Inquiry α)

-- ---------------------------------------------------------------------------
-- Factorizing by a shared table
-- ---------------------------------------------------------------------------

/-- The end of a settled trial division. What remains is a prime, and the table is to hold it. -/
def Inquiry.conclude (t : TrialDivision) : Inquiry (List (Nat × Nat)) :=
  if t.remaining ≤ 1 then .done (.ok t.found.reverse)
  else if largestPrime < t.remaining then .done (.error .limitExceeded)
  else .ask (.reach t.remaining) fun p => .done (.ok ((p, 1) :: t.found).reverse)

/-- Tries the primes from `index` on until the division is settled. The counter bounds how many
are asked for. -/
def Inquiry.divideFrom (counter index : Nat) (t : TrialDivision) : Inquiry (List (Nat × Nat)) :=
  if t.settled then conclude t
  else match counter with
    | 0 => .done (.error .limitExceeded)
    | counter + 1 => .ask (.primeAt index) fun p => divideFrom counter (index + 1) (t.divideBy p)

-- ---------------------------------------------------------------------------
-- Requests
-- ---------------------------------------------------------------------------

inductive Request where
  | primeAt (i : Nat)
  | indexOf (v : Nat)
  | extendToIndex (i : Nat)
  | extendToValue (v : Nat)
  | factorize (n : Nat)
  deriving DecidableEq, Repr

namespace Request

/-- What a request gives when it succeeds. -/
abbrev Answer : Request → Type
  | primeAt _ | indexOf _ => Nat
  | extendToIndex _ | extendToValue _ => Unit
  | factorize _ => List (Nat × Nat)

/-- How a request is answered. One prime more than there are is asked for before a factorization
gives up, and that question fails. -/
def inquiry : (r : Request) → Inquiry r.Answer
  | primeAt i => .ask (.primeAt i) fun p => .done (.ok p)
  | indexOf v => .ask (.indexOf v) fun i => .done (.ok i)
  | extendToIndex i => .ask (.primeAt i) fun _ => .done (.ok ())
  | extendToValue v => .ask (.reach v) fun _ => .done (.ok ())
  | factorize n =>
    if n = 0 then .done (.error .invalidInput)
    else .divideFrom (primeCount + 1) 0 (.start n)

end Request

-- ---------------------------------------------------------------------------
-- Callers
-- ---------------------------------------------------------------------------

/-- A request on its way. -/
structure Caller where
  request : Request
  inquiry : Inquiry request.Answer
  /-- The table as the caller last saw it, if it has not acted since. -/
  seen : Option PrimeTable

/-- A table and everyone who has made a request to it. -/
structure Shared where
  table : PrimeTable
  callers : List Caller

namespace Shared

/-- Before the first request. -/
def initial : Shared := ⟨.initial, []⟩

/-- One caller does one thing. -/
inductive Step : Shared → Shared → Prop
  | call {t : PrimeTable} {callers : List Caller} (r : Request) :
    Step ⟨t, callers⟩ ⟨t, ⟨r, r.inquiry, none⟩ :: callers⟩
  /-- A caller looks at the table. -/
  | look {t : PrimeTable} {before after : List Caller} {r : Request} {question : Question}
      {next : Nat → Inquiry r.Answer} :
    Step ⟨t, before ++ ⟨r, .ask question next, none⟩ :: after⟩
      ⟨t, before ++ ⟨r, .ask question next, some t⟩ :: after⟩
  /-- A caller acts on what it saw, and its question is answered. -/
  | answer {t t' seen : PrimeTable} {before after : List Caller} {r : Request}
      {question : Question} {next : Nat → Inquiry r.Answer} {n : Nat}
      (run : (question.query seen).run t = .ok n t') :
    Step ⟨t, before ++ ⟨r, .ask question next, some seen⟩ :: after⟩
      ⟨t', before ++ ⟨r, next n, none⟩ :: after⟩
  /-- A caller acts on what it saw, and its question fails. -/
  | refuse {t t' seen : PrimeTable} {before after : List Caller} {r : Request}
      {question : Question} {next : Nat → Inquiry r.Answer} {error : PrimeError}
      (run : (question.query seen).run t = .error error t') :
    Step ⟨t, before ++ ⟨r, .ask question next, some seen⟩ :: after⟩
      ⟨t', before ++ ⟨r, .done (.error error), none⟩ :: after⟩

/-- The second is the first after any number of steps. -/
inductive Reaches (s : Shared) : Shared → Prop
  | refl : Reaches s s
  | step {a b : Shared} : Reaches s a → Step a b → Reaches s b

end Shared

end FactorMachine.PrimeTable
