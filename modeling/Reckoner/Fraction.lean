/-!
# Fractions of bounded size

A fraction has a signed 64-bit numerator and a positive 64-bit denominator in
lowest terms. Every operation is computed part by part and fails when a part, or
a product on the way to it, leaves the range: the caller then falls back to
approximate arithmetic. The order compares cross products and never fails.
-/

namespace Reckoner

/-- A numerator over a denominator. -/
structure Fraction where
  /-- The signed part. -/
  num : Int
  /-- The part below the line. -/
  den : Int
  deriving DecidableEq, Repr

namespace Fraction

/-- The least number of the range. -/
def least : Int := -0x8000000000000000

/-- The greatest number of the range. -/
def greatest : Int := 0x7FFFFFFFFFFFFFFF

/-- A number of the range, or nothing. -/
def inRange? (n : Int) : Option Int :=
  if least ≤ n ∧ n ≤ greatest then some n else none

/-- What is in range is kept as it is. -/
theorem inRange?_eq_some {n m : Int} :
    inRange? n = some m ↔ (least ≤ n ∧ n ≤ greatest) ∧ n = m := by
  simp only [inRange?]
  split
  · simp_all
  · rename_i h
    simp only [reduceCtorEq, false_iff, not_and]
    exact fun hr => absurd hr h

/-- A value that the operations produce: in range, in lowest terms, with the sign above. -/
structure Normal (q : Fraction) : Prop where
  /-- The numerator is in range. -/
  num_range : least ≤ q.num ∧ q.num ≤ greatest
  /-- The denominator is in range. -/
  den_range : 0 < q.den ∧ q.den ≤ greatest
  /-- No common factor is left. -/
  coprime : Int.gcd q.num q.den = 1

/-- A whole number. -/
def ofInt (n : Int) : Fraction := ⟨n, 1⟩

/-- A whole number of the range is normal. -/
theorem normal_ofInt {n : Int} (h : least ≤ n ∧ n ≤ greatest) : Normal (ofInt n) :=
  ⟨h, ⟨Int.one_pos, by simp only [ofInt]; decide⟩, by simp [ofInt]⟩

/-- The fraction `num / den` in lowest terms. The least number of the range is
refused on either side of the line, because its negation is out of range. -/
def make? (num den : Int) : Option Fraction :=
  if den = 0 ∨ num = least ∨ den = least then none
  else
    let common : Int := Int.gcd num den
    let sign : Int := if den < 0 then -1 else 1
    some ⟨sign * (num / common), sign * (den / common)⟩

/-- Nothing is left below the line. -/
def isWhole (q : Fraction) : Bool := q.den == 1

/-- Nothing is left above the line. -/
def isZero (q : Fraction) : Bool := q.num == 0

/-- The number one. -/
def isOne (q : Fraction) : Bool := q.num == 1 && q.den == 1

/-- The sign above the line. -/
def isNegative (q : Fraction) : Bool := q.num < 0

/-- The quotient of the parts as doubles. -/
def toFloat (q : Fraction) : Float := Float.ofInt q.num / Float.ofInt q.den

/-- The negated fraction, unless its numerator leaves the range. -/
def neg? (q : Fraction) : Option Fraction := do
  return ⟨← inRange? (-q.num), q.den⟩

/-- The sum over the product of the denominators. -/
def add? (p q : Fraction) : Option Fraction := do
  let left ← inRange? (p.num * q.den)
  let right ← inRange? (q.num * p.den)
  make? (← inRange? (left + right)) (← inRange? (p.den * q.den))

/-- The sum with the negated second fraction. -/
def sub? (p q : Fraction) : Option Fraction := do
  add? p (← neg? q)

/-- The product of both parts. -/
def mul? (p q : Fraction) : Option Fraction := do
  make? (← inRange? (p.num * q.num)) (← inRange? (p.den * q.den))

/-- The product with the parts of the second fraction exchanged; nothing over zero. -/
def div? (p q : Fraction) : Option Fraction := do
  make? (← inRange? (p.num * q.den)) (← inRange? (p.den * q.num))

/-- A power in range. From exponent 64 on only zero and the units have one, and their
powers repeat with period two. -/
def power? (base : Int) (exponent : Nat) : Option Int :=
  if exponent < 64 then inRange? (Int.pow base exponent)
  else if base.natAbs ≤ 1 then some (Int.pow base (64 + exponent % 2))
  else none

/-- A whole power; a negative exponent exchanges the parts. Exponents of 32 bits only. -/
def pow? (q : Fraction) (exponent : Int) : Option Fraction :=
  if 0x100000000 ≤ exponent.natAbs then none
  else do
    let num ← power? q.num exponent.natAbs
    let den ← power? q.den exponent.natAbs
    if exponent < 0 then make? den num else make? num den

/-- The order of the values, by cross products. -/
def compare (p q : Fraction) : Ordering := Ord.compare (p.num * q.den) (q.num * p.den)

/-- Strictly below in the order of the values. -/
def lt (p q : Fraction) : Bool := p.compare q == .lt

/-- A whole number as it is; otherwise the parts around a slash. -/
def text (q : Fraction) : String :=
  if q.den = 1 then toString q.num else toString q.num ++ "/" ++ toString q.den

end Fraction

end Reckoner
