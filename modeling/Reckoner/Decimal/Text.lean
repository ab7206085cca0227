import Reckoner.Decimal.Shortest

/-!
# Doubles as text

Doubles are written in four ways. `plain` and `listed` give the shortest digits
that are read back, the first always positional, the second with an exponent for
very large and very small numbers. `rounded` gives at most a chosen number of
places. `canonical` is the form in which a real number stands in an expression:
always with a point or an exponent, so that it is read back as a real number.
-/

namespace Reckoner.Decimal

/-- The digits on either side of a point. -/
structure Pointed where
  /-- The digits before the point. -/
  whole : List Char
  /-- The digits after the point. -/
  fraction : List Char

namespace Pointed

/-- Insert a point before the last `places` digits, after zeros if these are too few. -/
def ofDigits (digits : List Char) (places : Nat) : Pointed :=
  let padded := List.replicate (places + 1 - digits.length) '0' ++ digits
  let cut := padded.length - places
  ⟨padded.take cut, padded.drop cut⟩

/-- Drop the zeros at the end of the fraction. -/
def trim (p : Pointed) : Pointed :=
  ⟨p.whole, (p.fraction.reverse.dropWhile (· == '0')).reverse⟩

/-- Keep at least one digit after the point. -/
def keepOne (p : Pointed) : Pointed :=
  if p.fraction.isEmpty then ⟨p.whole, ['0']⟩ else p

/-- The point is written only between digits. -/
def text (p : Pointed) : List Char :=
  if p.fraction.isEmpty then p.whole else p.whole ++ '.' :: p.fraction

end Pointed

/-- A minus sign before a negative number. -/
def signed (negative : Bool) (s : List Char) : String :=
  String.ofList (if negative then '-' :: s else s)

/-- The digits of a decimal around its point, without an exponent. -/
def pointed (d : Decimal) : Pointed :=
  if 0 ≤ d.exponent then ⟨d.digits ++ List.replicate d.exponent.natAbs '0', []⟩
  else Pointed.ofDigits d.digits d.exponent.natAbs

/-- The digits of a decimal with the point after the first of them. -/
def leadingPointed (d : Decimal) : Pointed := Pointed.ofDigits d.digits (d.digits.length - 1)

/-- The shortest digits, positional; a whole number has no point. -/
def plain (x : Float) : String :=
  match Binary64.ofFloat x with
  | .nan => "NaN"
  | .infinite negative => signed negative "inf".toList
  | .finite negative m e => signed negative (Binary64.shortest m e).pointed.text

/-- The shortest digits as they appear in a list of arguments: with an exponent when
the magnitude is below `10 ^ -4` or reaches `10 ^ 16`, otherwise with a point. -/
def listed (x : Float) : String :=
  match Binary64.ofFloat x with
  | .nan => "NaN"
  | .infinite negative => signed negative "inf".toList
  | .finite negative m e =>
    let d := Binary64.shortest m e
    if m != 0 && (d.leading < -4 || 16 ≤ d.leading) then
      signed negative (d.leadingPointed.text ++ 'e' :: (toString d.leading).toList)
    else signed negative d.pointed.keepOne.text

/-- The number of places after which every double is written exactly. -/
def exactPlaces : Nat := 1100

/-- The digits of `m · 2 ^ e` rounded to `places` places, halves to even. -/
def fixedPlaces (m : Nat) (e : Int) (places : Nat) : Pointed :=
  let value := Ratio.scaled m 2 e
  let n := divideHalfEven (value.top * Nat.pow 10 places) value.bottom
  Pointed.ofDigits (Nat.toDigits 10 n) places

/-- The digits of `m · 2 ^ e` rounded to `places` places after the first significant
digit, and the power of ten of that digit. -/
def scientificPlaces (m : Nat) (e : Int) (places : Nat) : Pointed × Int :=
  let value := Ratio.scaled m 2 e
  let leading := value.leadingTen
  let grid := value.overTen (leading - places)
  let n := divideHalfEven grid.top grid.bottom
  if n = Nat.pow 10 (places + 1) then
    (Pointed.ofDigits (Nat.toDigits 10 (Nat.pow 10 places)) places, leading + 1)
  else (Pointed.ofDigits (Nat.toDigits 10 n) places, leading)

/-- At most `places` places, but at least one; an exponent when the magnitude lies
outside `[10 ^ -5, 10 ^ 15)`. Zero has no sign, and nothing rounds to a negative zero. -/
def rounded (x : Float) (places : Nat) : String :=
  match Binary64.ofFloat x with
  | .nan => "Indeterminate"
  | .infinite negative => signed negative "Infinity".toList
  | .finite negative m e =>
    let places := min (max places 1) exactPlaces
    if m != 0 && !(1e-5 ≤ x.abs && x.abs < 1e15) then
      let (digits, leading) := scientificPlaces m e places
      signed negative (digits.trim.keepOne.text ++ 'E' :: (toString leading).toList)
    else
      let text := (fixedPlaces m e places).trim.keepOne.text
      if text == ['0', '.', '0'] then "0.0" else signed negative text

/-- The form of a real number inside an expression: shortest digits with a point, or
fifteen places and an exponent from `10 ^ 15` on. -/
def canonical (x : Float) : String :=
  match Binary64.ofFloat x with
  | .finite negative m e =>
    if 1e15 ≤ x.abs then rounded x 15
    else signed negative (Binary64.shortest m e).pointed.keepOne.text
  | _ => rounded x 1

end Reckoner.Decimal
