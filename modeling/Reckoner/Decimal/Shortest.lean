import Reckoner.Decimal.Binary64

/-!
# Shortest decimals

Every double stands for an interval of reals: those that are read back as it.
The shortest decimal of a double is a decimal in that interval with the fewest
significant digits, and among those the one nearest to the double. On a grid of
decimals with a given number of digits only the two neighbours of the double can
be nearest, so the search tries the grids in turn and looks at two points of each.
-/

namespace Reckoner

/-- The nonnegative number `coefficient · 10 ^ exponent`. -/
structure Decimal where
  /-- The significant digits, read as a number. -/
  coefficient : Nat
  /-- The power of ten that they are multiplied with. -/
  exponent : Int
  deriving DecidableEq, Repr

namespace Decimal

/-- Move the zeros at the end of the coefficient into the exponent, at most `fuel` of them. -/
def strip : (fuel : Nat) → Decimal → Decimal
  | 0, d => d
  | fuel + 1, d =>
    if d.coefficient % 10 = 0 then strip fuel ⟨d.coefficient / 10, d.exponent + 1⟩ else d

/-- The digits of the coefficient. -/
def digits (d : Decimal) : List Char := Nat.toDigits 10 d.coefficient

/-- The power of ten of the first digit. -/
def leading (d : Decimal) : Int := d.exponent + d.digits.length - 1

end Decimal

/-- A ratio of two natural numbers as they stand, `top / bottom`. -/
structure Ratio where
  /-- The part above the line. -/
  top : Nat
  /-- The part below the line. -/
  bottom : Nat
  deriving DecidableEq, Repr

namespace Ratio

/-- The ratio `n · base ^ e` with the power on the side where it is natural. -/
def scaled (n base : Nat) (e : Int) : Ratio :=
  if 0 ≤ e then ⟨n * Nat.pow base e.natAbs, 1⟩ else ⟨n, Nat.pow base e.natAbs⟩

/-- Divide by a power of ten. -/
def overTen (r : Ratio) (e : Int) : Ratio :=
  if 0 ≤ e then ⟨r.top, r.bottom * Nat.pow 10 e.natAbs⟩
  else ⟨r.top * Nat.pow 10 e.natAbs, r.bottom⟩

/-- The power of ten of the first significant digit of a positive ratio, from an
estimate by the lengths of its parts that is at most one too high. -/
def leadingTen (r : Ratio) : Int :=
  let guess : Int := (Nat.toDigits 10 r.top).length - (Nat.toDigits 10 r.bottom).length
  let scaled := r.overTen guess
  if scaled.bottom ≤ scaled.top then guess else guess - 1

end Ratio

/-- The nearest integer to a quotient; a half goes to the even neighbour. -/
def divideHalfEven (n d : Nat) : Nat :=
  let q := n / d
  let r := n % d
  if 2 * r < d then q else if d < 2 * r then q + 1 else if q % 2 = 0 then q else q + 1

namespace Binary64

/-- Whether a decimal is read back as `mantissa · 2 ^ exponent`. The interval reaches
half a unit up and down, but only a quarter down from a power of two with a finer
neighbour; its ends belong to it when the mantissa is even. -/
def readsBack (mantissa : Nat) (exponent : Int) (d : Decimal) : Bool :=
  let candidate := Ratio.scaled d.coefficient 10 d.exponent
  let quarter := Ratio.scaled 1 2 (exponent - 2)
  let below := if mantissa = 0x10000000000000 ∧ -1074 < exponent then 1 else 2
  let place := candidate.top * quarter.bottom
  let low := (4 * mantissa - below) * (quarter.top * candidate.bottom)
  let high := (4 * mantissa + 2) * (quarter.top * candidate.bottom)
  if mantissa % 2 = 0 then low ≤ place && place ≤ high else low < place && place < high

/-- The better of the two decimals around the double on the grid with step
`10 ^ step`, if one of them is read back. A tie goes up. -/
def onGrid (mantissa : Nat) (exponent step : Int) : Option Decimal :=
  let value := (Ratio.scaled mantissa 2 exponent).overTen step
  let below : Decimal := ⟨value.top / value.bottom, step⟩
  let above : Decimal := ⟨value.top / value.bottom + 1, step⟩
  let rest := value.top % value.bottom
  match readsBack mantissa exponent below, readsBack mantissa exponent above with
  | true, true => some (if 2 * rest < value.bottom then below else above)
  | true, false => some below
  | false, true => some above
  | false, false => none

/-- Try grids from `digits` significant digits on; seventeen always suffice. -/
def search (mantissa : Nat) (exponent leading : Int) : (fuel digits : Nat) → Decimal
  | 0, _ => ⟨mantissa, exponent⟩
  | fuel + 1, digits =>
    match onGrid mantissa exponent (leading - digits + 1) with
    | some d => d.strip 17
    | none => search mantissa exponent leading fuel (digits + 1)

/-- The shortest decimal of the positive double `mantissa · 2 ^ exponent`. -/
def shortest (mantissa : Nat) (exponent : Int) : Decimal :=
  if mantissa = 0 then ⟨0, 0⟩
  else search mantissa exponent (Ratio.scaled mantissa 2 exponent).leadingTen 17 1

end Binary64

end Reckoner
