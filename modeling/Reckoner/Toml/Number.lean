import Reckoner.Decimal.Reading
import Reckoner.Toml.Text

/-!
# Numbers and points in time

Digits may have underscores between them. A whole number is decimal, without zeros in front,
or has a base mark; it has to fit into 64 bits. A number with a fraction or an exponent may
not be too large to be finite. A date has to be one of the calendar.
-/

namespace Reckoner.Toml

open Text Text.Reader

/-- Digits, each but the first with an underscore in front of it or not. -/
def digits (isDigit : Char → Bool) : Reader (List Char) := do
  let first ← satisfying isDigit
  let others ← many ((do char '_'; satisfying isDigit) <|> satisfying isDigit)
  return first :: others

/-- A sign, or nothing. -/
def sign : Reader (List Char) :=
  (do char '+'; return ['+']) <|> (do char '-'; return ['-']) <|> pure []

/-- Decimal digits without a zero in front of others. -/
def wholeDigits : Reader (List Char) :=
  (do char '0'; return ['0']) <|> digits Char.isDigit

/-- A point with digits behind it. -/
def fraction : Reader (List Char) := do
  char '.'
  return '.' :: (← digits Char.isDigit)

/-- An exponent mark with digits behind it. -/
def exponent : Reader (List Char) := do
  let _ ← satisfying fun c => c == 'e' || c == 'E'
  let s ← sign
  return 'e' :: s ++ (← digits Char.isDigit)

/-- A number with a fraction or an exponent. -/
def float : Reader Float := do
  let s ← sign
  let whole ← wholeDigits
  let tail ← exponent <|> (do
    let f ← fraction
    return f ++ (← exponent <|> pure []))
  let x ← liftM (Decimal.read? (String.ofList (s ++ whole ++ tail)))
  guard (x != 1.0 / 0.0)
  return x

/-- A number that has no digits. -/
def namedFloat : Reader Float := do
  let s ← sign
  let x ← (do word "inf".toList; return 1.0 / 0.0) <|> (do word "nan".toList; return 0.0 / 0.0)
  return if s = ['-'] then -x else x

/-- The numbers of 64 bits. -/
def isInteger (n : Int) : Bool := -0x8000000000000000 ≤ n && n < 0x8000000000000000

/-- Digits of a base behind its mark. -/
def based (mark : Char) (base : Nat) : Reader Int := do
  word ['0', mark]
  let ds ← digits fun c => (hexValue? c).any (· < base)
  return ds.foldl (fun n c => n * base + (hexValue? c).getD 0) (0 : Nat)

/-- A whole number. -/
def integer : Reader Int := do
  let n ← based 'x' 16 <|> based 'o' 8 <|> based 'b' 2 <|> (do
    let s ← sign
    let ds ← wholeDigits
    let n : Int := Nat.ofDigitChars 10 ds 0
    return if s = ['-'] then -n else n)
  guard (isInteger n)
  return n

/-- A number of so many digits that lies within bounds. -/
def field (width low high : Nat) : Reader Nat := fun s =>
  let ds := s.take width
  let n := Nat.ofDigitChars 10 ds 0
  if ds.length = width ∧ ds.all Char.isDigit ∧ low ≤ n ∧ n ≤ high then some (n, s.drop width)
  else none

/-- The number of days of a month. -/
def daysOf (year month : Nat) : Nat :=
  if month = 2 then
    if year % 4 = 0 ∧ (year % 100 ≠ 0 ∨ year % 400 = 0) then 29 else 28
  else if month = 4 ∨ month = 6 ∨ month = 9 ∨ month = 11 then 30
  else 31

/-- A date. -/
def date : Reader Unit := do
  let year ← field 4 0 9999
  char '-'
  let month ← field 2 1 12
  char '-'
  let day ← field 2 1 31
  guard (day ≤ daysOf year month)

/-- A time of day; a minute may have a leap second. -/
def time : Reader Unit := do
  let _ ← field 2 0 23
  char ':'
  let _ ← field 2 0 59
  char ':'
  let _ ← field 2 0 60
  let _ ← optional do
    char '.'
    let c ← satisfying Char.isDigit
    return c :: (← Reader.takeWhile Char.isDigit)

/-- The distance of a time zone. -/
def zone : Reader Unit :=
  (do let _ ← satisfying fun c => c == 'Z' || c == 'z') <|> do
    let _ ← satisfying fun c => c == '+' || c == '-'
    let _ ← field 2 0 23
    char ':'
    let _ ← field 2 0 59

/-- A date, with a time behind it or without, or a time. -/
def moment : Reader Unit :=
  (do
    date
    let _ ← optional do
      let _ ← satisfying fun c => c == 'T' || c == 't' || c == ' '
      time
      optional zone) <|> time

end Reckoner.Toml
