import Reckoner.Toml.Number

/-!
# Reading documents

A document has a line for each header and each entry; blanks, comments and empty lines may
stand between them. An entry ends with its line, but an array may have line ends between its
items.
-/

namespace Reckoner.Toml

open Text Text.Reader

/-- Go past blanks, comments and line ends. A comment goes on as long as its characters are
plain. -/
def skipFiller (inComment : Bool) : List Char → List Char
  | '\r' :: '\n' :: rest => skipFiller false rest
  | '\n' :: rest => skipFiller false rest
  | '#' :: rest => skipFiller true rest
  | c :: rest =>
    if isBlank c || inComment && isPlain c then skipFiller inComment rest else c :: rest
  | [] => []

/-- Blanks, comments and line ends. -/
def filler : Reader Unit := fun s => some ((), skipFiller false s)

/-- The rest of a line behind a header or an entry. -/
def lineRest : Reader Unit := do
  blanks
  let _ ← optional do
    char '#'
    skipWhile isPlain
  lineEnd <|> atEnd

/-- A value without others inside it. -/
def scalar : Reader Value :=
  (do return .text (← text)) <|>
  (do word "true".toList; return .boolean true) <|>
  (do word "false".toList; return .boolean false) <|>
  (do moment; return .moment) <|>
  (do return .float (← float)) <|>
  (do return .integer (← integer)) <|>
  (do return .float (← namedFloat))

/-- Values between brackets, with commas between them and perhaps one behind the last. -/
def array (item : Reader Value) : Reader Value := do
  char '['
  let items ← optional <| separated (char ',') do
    filler
    let v ← item
    filler
    return v
  if items.isSome then
    let _ ← optional (char ',')
  filler
  char ']'
  return .array (items.getD [])

/-- A key, an equals sign and a value. -/
def entry (item : Reader Value) : Reader (Key × Value) := do
  let k ← key
  char '='
  blanks
  let v ← item
  return (k, v)

/-- Entries between braces, with commas between them. -/
def inlineTable (item : Reader Value) : Reader Value := do
  char '\x7b'
  let members ← optional <| separated (char ',') do
    let e ← entry item
    blanks
    return e
  blanks
  char '\x7d'
  return .table (← liftM (Table.ofMembers? (members.getD [])))

/-- A value with at most the given number of brackets and braces around its parts. -/
def value : Nat → Reader Value
  | 0 => scalar
  | levels + 1 => scalar <|> array (value levels) <|> inlineTable (value levels)

/-- The number of brackets and braces around a part of a value is at most this. -/
def maxLevels : Nat := 79

/-- A header or an entry. -/
def line : Reader Line :=
  (do
    word ['[', '[']
    let k ← key
    word [']', ']']
    return .nextHeader k) <|>
  (do
    char '['
    let k ← key
    char ']'
    return .header k) <|>
  (do
    let (k, v) ← entry (value maxLevels)
    return .entry k v)

/-- The lines of a document. A mark of the byte order in front of them is skipped. -/
def lines : Reader (List Line) := do
  let _ ← optional (char '\uFEFF')
  filler
  let ls ← many do
    let l ← line
    lineRest
    filler
    return l
  atEnd
  return ls

/-- Read a document. -/
def ofText? (s : String) : Option (Table Value) := do
  let (ls, _) ← lines.run s.toList
  Table.ofLines? ls

end Reckoner.Toml
