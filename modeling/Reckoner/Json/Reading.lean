import Reckoner.Json.Basic

/-!
# Reading structured data

A value may have blanks around each of its parts, and nothing else around the whole.
The values inside a value are read with one level less; a text has never more levels
than characters.
-/

namespace Reckoner.Json

open Text

/-- The blanks between parts. -/
def isSpace (c : Char) : Bool := c == ' ' || c == '\t' || c == '\n' || c == '\r'

/-- Go past blanks. -/
def skipSpace (s : List Char) : List Char := s.dropWhile isSpace

/-- At least one digit, and what follows. -/
def digits? (s : List Char) : Option (List Char × List Char) :=
  let ds := s.takeWhile Char.isDigit
  if ds.isEmpty then none else some (ds, s.dropWhile Char.isDigit)

/-- Digits without a zero in front of others. -/
def whole? (s : List Char) : Option (List Char × List Char) := do
  let (ds, rest) ← digits? s
  if ds.head? = some '0' ∧ 1 < ds.length then none else some (ds, rest)

/-- A point with digits behind it, or nothing. -/
def fraction? : List Char → Option (List Char × List Char)
  | '.' :: rest => do
    let (ds, rest) ← digits? rest
    return ('.' :: ds, rest)
  | s => some ([], s)

/-- The sign of an exponent, or nothing. -/
def sign : List Char → List Char × List Char
  | '+' :: rest => (['+'], rest)
  | '-' :: rest => (['-'], rest)
  | s => ([], s)

/-- An exponent mark with digits behind it, or nothing. -/
def exponent? : List Char → Option (List Char × List Char)
  | c :: rest =>
    if c = 'e' ∨ c = 'E' then do
      let (plusMinus, rest) := sign rest
      let (ds, rest) ← digits? rest
      return (c :: plusMinus ++ ds, rest)
    else some ([], c :: rest)
  | [] => some ([], [])

/-- A number, as it is written. -/
def number? (s : List Char) : Option (Json × List Char) := do
  let (minus, rest) : List Char × List Char :=
    match s with
    | '-' :: rest => (['-'], rest)
    | s => ([], s)
  let (whole, rest) ← whole? rest
  let (fraction, rest) ← fraction? rest
  let (exponent, rest) ← exponent? rest
  return (number (minus ++ whole ++ fraction ++ exponent), rest)

/-- Items with commas between them, up to the closing bracket; there is at least one. -/
def itemsUpTo {α : Type} (close : Char) (item : Reader α) (s : List Char) :
    Option (List α × List Char) :=
  match item s with
  | none => none
  | some (a, rest) =>
    match skipSpace rest with
    | [] => none
    | c :: rest =>
      if c = close then some ([a], rest)
      else if c = ',' ∧ rest.length < s.length then
        (itemsUpTo close item rest).map fun (as, rest) => (a :: as, rest)
      else none
termination_by s.length
decreasing_by exact ‹_ ∧ _›.2

/-- Items with commas between them, up to the closing bracket; there may be none. -/
def sequence {α : Type} (close : Char) (item : Reader α) : Reader (List α) := fun s =>
  match skipSpace s with
  | c :: rest => if c = close then some ([], rest) else itemsUpTo close item (c :: rest)
  | [] => none

/-- A name, a colon, and a value. -/
def member? (value : Reader Json) : Reader (Option String × Json) := fun s => do
  match skipSpace s with
  | '"' :: rest =>
    let (name, rest) ← Quoted.read rest
    match skipSpace rest with
    | ':' :: rest =>
      let (j, rest) ← value rest
      return ((name, j), rest)
    | _ => none
  | _ => none

/-- A value with at most the given number of levels. -/
def value? : Nat → Reader Json
  | 0, _ => none
  | levels + 1, s =>
    match skipSpace s with
    | 'n' :: 'u' :: 'l' :: 'l' :: rest => some (null, rest)
    | 't' :: 'r' :: 'u' :: 'e' :: rest => some (boolean true, rest)
    | 'f' :: 'a' :: 'l' :: 's' :: 'e' :: rest => some (boolean false, rest)
    | '"' :: rest => (Quoted.read rest).map fun (t, rest) => (string t, rest)
    | '[' :: rest =>
      (sequence ']' (value? levels) rest).map fun (items, rest) => (array items, rest)
    | '\x7b' :: rest =>
      (sequence '\x7d' (member? (value? levels)) rest).map fun (ms, rest) => (object ms, rest)
    | s => number? s

/-- Read a whole text as one value. -/
def ofText? (s : String) : Option Json :=
  match value? (s.toList.length + 1) s.toList with
  | some (j, rest) => if (skipSpace rest).isEmpty then some j else none
  | none => none

/-! ## Looking into values -/

/-- The text that a value is. -/
def text? : Json → Option String
  | string s => s
  | _ => none

/-- The items of an array, read one by one. -/
def arrayOf? {α : Type} (item : Json → Option α) : Json → Option (List α)
  | array items => items.mapM item
  | _ => none

/-- The value of the only member with a name. -/
def unique? (name : String) (members : List (Option String × Json)) : Option Json :=
  match members.filter fun m => m.1 == some name with
  | [m] => some m.2
  | _ => none

/-- The values of named fields: from an object that has each of them once, or from an
array that has them in order and nothing else. -/
def fields? (names : List String) : Json → Option (List Json)
  | object members =>
    if members.all fun m => m.1.isSome then names.mapM fun name => unique? name members else none
  | array items => if items.length = names.length then some items else none
  | _ => none

/-- A name out of a choice: as a string, or as the only member of an object, without content. -/
def choice? {α : Type} (ofName : String → Option α) : Json → Option α
  | string (some s) => ofName s
  | object [(some s, null)] => ofName s
  | _ => none

end Reckoner.Json
