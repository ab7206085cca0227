/-!
# Doubles taken apart

A double is a sign, a natural mantissa and a power of two, or one of the two
infinities, or not a number. Rounding to a whole number and writing in decimal
work on these parts with exact integer arithmetic.
-/

namespace Reckoner

/-- The parts of a double: a finite one is `± mantissa · 2 ^ exponent`. -/
inductive Binary64 where
  | nan
  | infinite (negative : Bool)
  | finite (negative : Bool) (mantissa : Nat) (exponent : Int)
  deriving DecidableEq, Repr

namespace Binary64

/-- Read the sign bit, the eleven exponent bits and the fifty-two fraction bits. -/
def ofBits (bits : Nat) : Binary64 :=
  let negative := bits / 0x8000000000000000 % 2 == 1
  let exponent : Nat := bits / 0x10000000000000 % 0x800
  let fraction := bits % 0x10000000000000
  if exponent = 0x7FF then
    if fraction = 0 then .infinite negative else .nan
  else if exponent = 0 then .finite negative fraction (-1074)
  else .finite negative (0x10000000000000 + fraction) ((exponent : Int) - 1075)

/-- The parts of a double. -/
def ofFloat (x : Float) : Binary64 := ofBits x.toBits.toNat

/-- The sign of a number, and of zero and the infinities too. -/
def isNegative : Binary64 → Bool
  | nan => false
  | infinite negative => negative
  | finite negative _ _ => negative

end Binary64

/-! ## Whole numbers near a double -/

/-- Which of two neighbouring whole numbers to take. The whole part of the
magnitude is followed by `rest / unit`. -/
abbrev RoundingRule := (negative : Bool) → (whole rest unit : Nat) → Nat

/-- Replace a double by a whole number next to it; the sign is kept, on zero too. -/
def roundWhole (rule : RoundingRule) (x : Float) : Float :=
  match Binary64.ofFloat x with
  | .finite negative mantissa exponent =>
    if 0 ≤ exponent then x
    else
      let unit := Nat.pow 2 exponent.natAbs
      let magnitude := Float.ofNat (rule negative (mantissa / unit) (mantissa % unit) unit)
      if negative then -magnitude else magnitude
  | _ => x

/-- The nearest whole number toward zero. -/
def wholePart : Float → Float := roundWhole fun _ whole _ _ => whole

/-- The greatest whole number that is not above. -/
def floor : Float → Float :=
  roundWhole fun negative whole rest _ => if negative && rest != 0 then whole + 1 else whole

/-- The least whole number that is not below. -/
def ceiling : Float → Float :=
  roundWhole fun negative whole rest _ => if !negative && rest != 0 then whole + 1 else whole

/-- The nearest whole number; a half goes away from zero. -/
def roundHalfAway : Float → Float :=
  roundWhole fun _ whole rest unit => if unit ≤ 2 * rest then whole + 1 else whole

/-- No digits follow the point. -/
def isWhole (x : Float) : Bool := x.isFinite && wholePart x == x

/-- The integer that a double without fractional digits stands for; zero for the
infinities and for what is not a number. -/
def wholeValue (x : Float) : Int :=
  match Binary64.ofFloat x with
  | .finite negative mantissa exponent =>
    let magnitude :=
      if 0 ≤ exponent then mantissa * Nat.pow 2 exponent.natAbs
      else mantissa / Nat.pow 2 exponent.natAbs
    if negative then -(magnitude : Int) else magnitude
  | _ => 0

end Reckoner
