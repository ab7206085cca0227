/-!
# Reading numbers

A numeral has digits on at least one side of an optional point and an optional
power of ten. Its value is the nearest double; the signs and the names of the
infinities and of what is not a number are read as well.
-/

namespace Reckoner.Decimal

/-- The double nearest to `coefficient · 10 ^ exponent`. Beyond the range of doubles
the power is not computed. -/
def nearest (coefficient : Nat) (exponent : Int) : Float :=
  let leading : Int := (Nat.toDigits 10 coefficient).length + exponent
  if coefficient = 0 ∨ leading < -330 then 0.0
  else if 330 < leading then 1.0 / 0.0
  else Float.ofScientific coefficient (exponent < 0) exponent.natAbs

/-- Cut off the digits at the front. -/
def spanDigits (s : List Char) : List Char × List Char :=
  (s.takeWhile Char.isDigit, s.dropWhile Char.isDigit)

/-- Cutting loses nothing. -/
theorem spanDigits_append (s : List Char) : (spanDigits s).1 ++ (spanDigits s).2 = s :=
  List.takeWhile_append_dropWhile

/-- What remains is no longer than the text. -/
theorem spanDigits_length (s : List Char) : (spanDigits s).2.length ≤ s.length := by
  have h := congrArg List.length (spanDigits_append s)
  rw [List.length_append] at h
  omega

/-- Digits with an optional point among them: the digits before it, those after it,
and the rest. At least one digit is needed. -/
def readPointed (s : List Char) : Option (List Char × List Char × List Char) :=
  let (whole, rest) := spanDigits s
  let (fraction, rest) :=
    match rest with
    | '.' :: rest => spanDigits rest
    | rest => ([], rest)
  if whole.isEmpty && fraction.isEmpty then none else some (whole, fraction, rest)

/-- An exponent mark with a power of ten, or nothing at all. -/
def readPower : List Char → Option Int
  | [] => some 0
  | mark :: rest =>
    if mark == 'e' || mark == 'E' then
      let (negative, rest) :=
        match rest with
        | '-' :: rest => (true, rest)
        | '+' :: rest => (false, rest)
        | rest => (false, rest)
      if rest.isEmpty || !rest.all Char.isDigit then none
      else
        let power : Int := Nat.ofDigitChars 10 rest 0
        some (if negative then -power else power)
    else none

/-- A numeral without a sign. -/
def readUnsigned? (s : List Char) : Option Float := do
  let (whole, fraction, rest) ← readPointed s
  let power ← readPower rest
  return nearest (Nat.ofDigitChars 10 (whole ++ fraction) 0) (power - fraction.length)

/-- A numeral or a name of a value that has none, with an optional sign. -/
def read? (s : String) : Option Float :=
  let (negative, rest) :=
    match s.toList with
    | '-' :: rest => (true, rest)
    | '+' :: rest => (false, rest)
    | rest => (false, rest)
  let name := String.ofList (rest.map Char.toLower)
  let magnitude :=
    if name == "inf" || name == "infinity" then some (1.0 / 0.0)
    else if name == "nan" then some (0.0 / 0.0)
    else readUnsigned? rest
  magnitude.map fun x => if negative then -x else x

end Reckoner.Decimal
