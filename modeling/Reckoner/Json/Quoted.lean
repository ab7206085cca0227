import Reckoner.Text.Reader

/-!
# Quoted strings

A string stands between double quotes. Quotes, backslashes and control characters are
escaped, all else is written as it is. Any character may be escaped by its code units;
half of a surrogate pair on its own is allowed there, but it makes the content no text.
-/

namespace Reckoner.Json

open Text

namespace Quoted

/-- A digit of a code unit, in small letters. -/
def hexDigit (n : Nat) : Char := (Nat.digitChar n)

/-- What is written for a character. -/
def escape (c : Char) : List Char :=
  if c = '"' then ['\\', '"']
  else if c = '\\' then ['\\', '\\']
  else if c = '\n' then ['\\', 'n']
  else if c = '\r' then ['\\', 'r']
  else if c = '\t' then ['\\', 't']
  else if c = '\x08' then ['\\', 'b']
  else if c = '\x0c' then ['\\', 'f']
  else if c.toNat < 0x20 then
    ['\\', 'u', '0', '0', hexDigit (c.toNat / 16), hexDigit (c.toNat % 16)]
  else [c]

/-- The text between quotes. -/
def encode (s : List Char) : List Char := '"' :: s.flatMap escape ++ ['"']

/-- A part of a quoted string. -/
inductive Part where
  /-- A character as it is. -/
  | char (c : Char)
  /-- A code unit of sixteen bits. -/
  | unit (n : Nat)
  deriving DecidableEq, Repr

/-- The value of four hexadecimal digits. -/
def unitValue? (a b c d : Char) : Option Nat := do
  return (((← hexValue? a) * 16 + (← hexValue? b)) * 16 + (← hexValue? c)) * 16 + (← hexValue? d)

/-- The character that a letter behind a backslash stands for. -/
def unescape? : Char → Option Char
  | '"' => some '"'
  | '\\' => some '\\'
  | '/' => some '/'
  | 'b' => some '\x08'
  | 'f' => some '\x0c'
  | 'n' => some '\n'
  | 'r' => some '\r'
  | 't' => some '\t'
  | _ => none

/-- The parts up to the closing quote, and what follows it. -/
def parts : List Char → Option (List Part × List Char)
  | [] => none
  | '"' :: rest => some ([], rest)
  | '\\' :: 'u' :: a :: b :: c :: d :: rest => do
    let n ← unitValue? a b c d
    let (ps, rest) ← parts rest
    return (.unit n :: ps, rest)
  | '\\' :: e :: rest => do
    let c ← unescape? e
    let (ps, rest) ← parts rest
    return (.char c :: ps, rest)
  | c :: rest =>
    if c = '\\' ∨ c.toNat < 0x20 then none
    else do
      let (ps, rest) ← parts rest
      return (.char c :: ps, rest)

/-- The first half of a surrogate pair. -/
def isHigh (n : Nat) : Bool := 0xD800 ≤ n && n < 0xDC00

/-- The second half of a surrogate pair. -/
def isLow (n : Nat) : Bool := 0xDC00 ≤ n && n < 0xE000

/-- The text of parts, unless half of a surrogate pair is left alone. -/
def assemble : List Part → Option (List Char)
  | [] => some []
  | .char c :: rest => (assemble rest).map (c :: ·)
  | .unit high :: .unit low :: rest =>
    if isHigh high && isLow low then
      (assemble rest).map (Char.ofNat (0x10000 + (high - 0xD800) * 0x400 + (low - 0xDC00)) :: ·)
    else if isHigh high || isLow high then none
    else (assemble (.unit low :: rest)).map (Char.ofNat high :: ·)
  | .unit n :: rest =>
    if isHigh n || isLow n then none else (assemble rest).map (Char.ofNat n :: ·)

/-- The content of a string behind its opening quote, if it is text, and what follows. -/
def read (s : List Char) : Option (Option String × List Char) := do
  let (ps, rest) ← parts s
  return ((assemble ps).map String.ofList, rest)

end Quoted

end Reckoner.Json
