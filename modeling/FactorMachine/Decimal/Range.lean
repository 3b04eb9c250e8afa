import FactorMachine.Decimal.Shortest
import FactorMachine.Text.Numeral

/-!
# FactorMachine — numerals within the range of doubles

A long numeral is read as a double in two roundings. Its leading digits, as many as make a
number of 64 bits, are rounded to a double, and so is the power of ten that they are to be
multiplied with; the product is rounded again. The numeral is out of range if that power or
that product is beyond the largest double.

A negative power of ten divides, which never leads out of range: what becomes too small
reads as zero.
-/

namespace FactorMachine.Decimal

/-- The double nearest to a natural number, where doubles had no largest one; of two that are
as near the one with the even last place. -/
def nearestDouble (n : Nat) : Nat :=
  let unit := Nat.pow 2 (n.log2 - 52)
  let low := n / unit
  let twice := 2 * (n % unit)
  if unit < twice ∨ (unit = twice ∧ low % 2 = 1) then (low + 1) * unit else low * unit

/-- The least power of two above all doubles. -/
def doubleBound : Nat := Nat.pow 2 1024

/-- The greatest power of ten that is no more than the largest double. -/
def greatestTenExponent : Nat := 308

/-- Whether a decimal with a significand of 64 bits reads as a double. -/
def Numeral.inRange (d : Numeral) : Bool :=
  if d.digits = 0 ∨ d.exponent < 0 then true
  else
    let power := nearestDouble (Nat.pow 10 d.exponent.toNat)
    d.exponent ≤ greatestTenExponent &&
      nearestDouble (nearestDouble d.digits * power) < doubleBound

-- ---------------------------------------------------------------------------
-- From text
-- ---------------------------------------------------------------------------

/-- Appends digits to a number as long as it stays below `2 ^ 64`: the number, and what is
left of the text. -/
def leadingDigits (n : Nat) : List Char → Nat × List Char
  | [] => (n, [])
  | c :: rest =>
    match Text.digit? c with
    | some d => if 10 * n + d < UInt64.size then leadingDigits (10 * n + d) rest else (n, c :: rest)
    | none => (n, c :: rest)

/-- The digits that a text begins with, and what follows them. -/
def spanDigits (cs : List Char) : List Char × List Char :=
  cs.span fun c => (Text.digit? c).isSome

/-- The value of an exponent, or zero where there is none. -/
def exponentOf : List Char → Int
  | _ :: '-' :: digits => -((Text.digits? digits).getD 0 : Nat)
  | _ :: '+' :: digits => (Text.digits? digits).getD 0
  | _ :: digits => (Text.digits? digits).getD 0
  | [] => 0

/-- The decimal that the leading digits of a numeral without sign make. Digits that are left
out before the point count for the exponent, and those after the point for nothing. -/
def Numeral.ofDigits (cs : List Char) : Numeral :=
  let (whole, rest) := leadingDigits 0 cs
  let (omitted, rest) := spanDigits rest
  match rest with
  | '.' :: fraction =>
    let (digits, left) := leadingDigits whole fraction
    let (_, tail) := spanDigits left
    { digits
      exponent := omitted.length - (fraction.length - left.length : Nat) + exponentOf tail }
  | tail => { digits := whole, exponent := omitted.length + exponentOf tail }

/-- Whether a numeral reads as a double. -/
def isDouble (numeral : String) : Bool :=
  match numeral.toList with
  | '-' :: digits => (Numeral.ofDigits digits).inRange
  | digits => (Numeral.ofDigits digits).inRange

end FactorMachine.Decimal
