/-!
# FactorMachine — the shortest decimal of a double

A double is written with the fewest digits that read back as the same double, and with those
nearest to it if several are as short. The digits are found with exact natural numbers: the
double is a fraction, the reals that round to it form an interval, and for one digit, two
digits and so on the two neighbours of the double on the grid of that many digits are tried.

The notation is positional where the decimal point falls within sixteen digits or follows at
most four zeros, and otherwise has an exponent. There is always a digit after the point
unless there is an exponent.
-/

namespace FactorMachine.Decimal

/-- A positive double and the interval that rounds to it, as fractions over one
denominator. -/
structure Rounding where
  value : Nat
  lower : Nat
  upper : Nat
  denominator : Nat
  /-- Whether the ends of the interval round to the double, too. -/
  closed : Bool

/-- The interval of the positive finite double with the given bits. -/
def Rounding.ofBits (bits : UInt64) : Rounding :=
  let biased := (bits >>> 52 &&& 0x7FF).toNat
  let fraction := (bits &&& 0xFFFFFFFFFFFFF).toNat
  let mantissa := if biased = 0 then fraction else Nat.pow 2 52 + fraction
  -- The double is `mantissa * 2 ^ (scale - 1075)`, and quarters of its last place are exact.
  let scale := max biased 1
  let factor := Nat.pow 2 (scale - 1077)
  -- Below a power of two the doubles are twice as dense.
  let below := if fraction = 0 ∧ 1 < biased then 1 else 2
  { value := 4 * mantissa * factor
    lower := (4 * mantissa - below) * factor
    upper := (4 * mantissa + 2) * factor
    denominator := Nat.pow 2 (1077 - scale)
    closed := mantissa % 2 = 0 }

/-- A number `digits * 10 ^ exponent`. -/
structure Numeral where
  digits : Nat
  exponent : Int
  deriving DecidableEq, Repr

/-- The numerator of a power of ten, as a fraction of `tenDenominator`. -/
def tenNumerator (k : Int) : Nat := Nat.pow 10 k.toNat

def tenDenominator (k : Int) : Nat := Nat.pow 10 (-k).toNat

/-- Whether a decimal lies in the interval. -/
def Rounding.contains (r : Rounding) (d : Numeral) : Bool :=
  let scaled := d.digits * tenNumerator d.exponent * r.denominator
  let lower := r.lower * tenDenominator d.exponent
  let upper := r.upper * tenDenominator d.exponent
  (lower < scaled || (r.closed && lower == scaled)) &&
    (scaled < upper || (r.closed && scaled == upper))

/-- The least power of ten above the double, as an exponent. -/
def Rounding.magnitude (r : Rounding) : Int :=
  let above (k : Int) : Bool := r.value * tenDenominator k < tenNumerator k * r.denominator
  match (List.range 640).find? fun (i : Nat) => above ((i : Int) - 325) with
  | some i => (i : Int) - 325
  | none => 315

/-- The neighbour of the double on the grid of `10 ^ k` that lies in the interval, the nearer
one if both do; of two that are as near the even one. -/
def Rounding.onGrid? (r : Rounding) (k : Int) : Option Numeral :=
  let scaled := r.value * tenDenominator k
  let unit := tenNumerator k * r.denominator
  let low : Numeral := ⟨scaled / unit, k⟩
  let high : Numeral := ⟨scaled / unit + 1, k⟩
  let twice := 2 * (scaled % unit)
  let preferHigh := unit < twice || (unit == twice && low.digits % 2 == 1)
  match r.contains low, r.contains high with
  | true, true => some (if preferHigh then high else low)
  | true, false => some low
  | false, true => some high
  | false, false => none

/-- Moves trailing zeros from the digits to the exponent; the counter bounds how many. -/
def Numeral.strip : (counter : Nat) → Numeral → Numeral
  | 0, d => d
  | counter + 1, d =>
    if d.digits ≠ 0 ∧ d.digits % 10 = 0 then strip counter ⟨d.digits / 10, d.exponent + 1⟩
    else d

/-- The shortest decimal in the interval. Seventeen digits are always enough. -/
def Rounding.shortest (r : Rounding) : Numeral :=
  let k := r.magnitude
  match (List.range 17).findSome? fun n => r.onGrid? (k - (n + 1 : Nat)) with
  | some d => d.strip 20
  | none => ⟨0, 0⟩

def zeros (n : Nat) : List Char := List.replicate n '0'

/-- Lays out a positive decimal. -/
def Numeral.layOut (d : Numeral) : List Char :=
  let digits := (toString d.digits).toList
  -- The place of the decimal point, counted from the first digit.
  let point : Int := digits.length + d.exponent
  if 0 ≤ d.exponent ∧ point ≤ 16 then digits ++ zeros d.exponent.toNat ++ ['.', '0']
  else if 0 < point ∧ point ≤ 16 then
    digits.take point.toNat ++ '.' :: digits.drop point.toNat
  else if -5 < point ∧ point ≤ 0 then '0' :: '.' :: zeros (-point).toNat ++ digits
  else
    let mantissa := match digits with
      | first :: second :: rest => first :: '.' :: second :: rest
      | _ => digits
    mantissa ++ 'e' :: (toString (point - 1)).toList

/-- The text of a double; `none` for what is no number. -/
def text? (x : Float) : Option String :=
  if x.isNaN || x.isInf then none
  else
    let magnitude := x.toBits &&& 0x7FFFFFFFFFFFFFFF
    let sign := if x.toBits = magnitude then [] else ['-']
    let digits :=
      if magnitude = 0 then ['0', '.', '0'] else (Rounding.ofBits magnitude).shortest.layOut
    some (String.ofList (sign ++ digits))

end FactorMachine.Decimal
