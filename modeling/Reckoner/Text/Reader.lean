/-!
# Readers

A reader takes something off the front of a text and leaves the rest, or refuses. Readers
are put together one after another, as alternatives, and in repetition; a repetition ends
because every round leaves less than it found.
-/

namespace Reckoner.Text

/-- A way to read something off the front of a text. -/
abbrev Reader := StateT (List Char) Option

/-- The value of a hexadecimal digit. -/
def hexValue? (c : Char) : Option Nat :=
  if c.isDigit then some (c.toNat - '0'.toNat)
  else if 'a' ≤ c ∧ c ≤ 'f' then some (c.toNat - 'a'.toNat + 10)
  else if 'A' ≤ c ∧ c ≤ 'F' then some (c.toNat - 'A'.toNat + 10)
  else none

namespace Reader

/-- One character with a property. -/
def satisfying (p : Char → Bool) : Reader Char := fun s =>
  match s with
  | [] => none
  | c :: rest => if p c then some (c, rest) else none

/-- The given character. -/
def char (c : Char) : Reader Unit := do
  let _ ← satisfying (· == c)

/-- The given characters. -/
def word (w : List Char) : Reader Unit := fun s =>
  if w.isPrefixOf s then some ((), s.drop w.length) else none

/-- As many characters with a property as there are. -/
def takeWhile (p : Char → Bool) : Reader (List Char) := fun s =>
  some (s.takeWhile p, s.dropWhile p)

/-- Go past characters with a property. -/
def skipWhile (p : Char → Bool) : Reader Unit := fun s => some ((), s.dropWhile p)

/-- Nothing may be left. -/
def atEnd : Reader Unit := fun s => if s.isEmpty then some ((), []) else none

/-- As many items as there are, and the rest. An item that takes nothing is not read. -/
def repeated {α : Type} (item : Reader α) (s : List Char) : List α × List Char :=
  match item s with
  | none => ([], s)
  | some (a, rest) =>
    if rest.length < s.length then
      let (as, rest) := repeated item rest
      (a :: as, rest)
    else ([], s)
termination_by s.length

/-- As many items as there are. -/
def many {α : Type} (item : Reader α) : Reader (List α) := fun s => some (repeated item s)

/-- At least one item, with separators between them. A separator without an item behind it
is left unread. -/
def separated {α : Type} (separator : Reader Unit) (item : Reader α) : Reader (List α) := do
  let first ← item
  let others ← many do
    separator
    item
  return first :: others

end Reader

end Reckoner.Text
