import Reckoner.Text.Reader
import Reckoner.Toml.Basic

/-!
# Strings and keys

Strings stand between single or double quotes, on one line or, with three quotes, on
several. Between double quotes a backslash escapes. A key is a bare word or a string on one
line; keys with points between them make a path.
-/

namespace Reckoner.Toml

open Text Text.Reader

/-- A blank inside a line. -/
def isBlank (c : Char) : Bool := c == ' ' || c == '\t'

/-- What comments and strings are made of: everything but control characters, and the tab. -/
def isPlain (c : Char) : Bool := c == '\t' || (0x20 ≤ c.toNat && c.toNat != 0x7F)

/-- Go past blanks. -/
def blanks : Reader Unit := skipWhile isBlank

/-- The end of a line. -/
def lineEnd : Reader Unit := word ['\n'] <|> word ['\r', '\n']

/-- The character with a number of so many hexadecimal digits. -/
def numbered (width : Nat) : Reader Char := fun s => do
  let digits ← (s.take width).mapM hexValue?
  let n := digits.foldl (fun n d => n * 16 + d) 0
  if digits.length = width ∧ n.isValidChar then some (Char.ofNat n, s.drop width) else none

/-- The character that a letter behind a backslash stands for. -/
def unescape? : Char → Option Char
  | 'b' => some '\x08'
  | 't' => some '\t'
  | 'n' => some '\n'
  | 'f' => some '\x0c'
  | 'r' => some '\r'
  | '"' => some '"'
  | '\\' => some '\\'
  | _ => none

/-- What stands behind a backslash for a character. -/
def escaped : Reader Char := do
  let c ← satisfying fun _ => true
  if c = 'u' then numbered 4
  else if c = 'U' then numbered 8
  else liftM (unescape? c)

/-- A character between double quotes on one line. -/
def quotedChar : Reader Char :=
  (do char '\\'; escaped) <|> satisfying fun c => isPlain c && c != '"' && c != '\\'

/-- A string on one line. -/
def lineText : Reader String :=
  (do
    char '"'
    let content ← many quotedChar
    char '"'
    return String.ofList content) <|>
  (do
    char '\''
    let content ← Reader.takeWhile fun c => isPlain c && c != '\''
    char '\''
    return String.ofList content)

/-- A quote that does not begin the end of a string on several lines. -/
def innerQuote (q : Char) : Reader (List Char) := fun s =>
  if s.head? = some q && s.take 3 != [q, q, q] then some ([q], s.tail) else none

/-- The end of a string on several lines; up to two quotes in front of it belong to it. -/
def closing (q : Char) : Reader (List Char) :=
  (do word [q, q, q, q, q]; return [q, q]) <|> (do word [q, q, q, q]; return [q]) <|>
    (do word [q, q, q]; return [])

/-- A backslash at the end of a line joins it with what is visible next. -/
def joint : Reader (List Char) := do
  char '\\'
  blanks
  lineEnd
  let _ ← many ((do let _ ← satisfying isBlank) <|> lineEnd)
  return []

/-- A part of a string in double quotes on several lines. -/
def quotedPart : Reader (List Char) :=
  joint <|> (do char '\\'; return [← escaped]) <|> (do lineEnd; return ['\n']) <|>
    innerQuote '"' <|> (do return [← satisfying fun c => isPlain c && c != '"' && c != '\\'])

/-- A part of a string in single quotes on several lines. -/
def literalPart : Reader (List Char) :=
  (do lineEnd; return ['\n']) <|> innerQuote '\'' <|>
    (do return [← satisfying fun c => isPlain c && c != '\''])

/-- A string on several lines. A line end right behind the opening is no part of it. -/
def blockOf (q : Char) (part : Reader (List Char)) : Reader String := do
  word [q, q, q]
  let _ ← optional lineEnd
  let parts ← many part
  let last ← closing q
  return String.ofList (parts.flatten ++ last)

/-- A string. -/
def text : Reader String := blockOf '"' quotedPart <|> blockOf '\'' literalPart <|> lineText

/-- A character of a bare word. -/
def isBare (c : Char) : Bool := c.isAlphanum || c == '_' || c == '-'

/-- A key without points. -/
def keyWord : Reader String := lineText <|> do
  let w ← Reader.takeWhile isBare
  guard !w.isEmpty
  return String.ofList w

/-- The words of a key are fewer than this. -/
def keyBound : Nat := 80

/-- Words with points between them; there may be blanks around each. -/
def key : Reader Key := do
  let words ← separated (char '.') do
    blanks
    let w ← keyWord
    blanks
    return w
  guard (words.length < keyBound)
  let last ← liftM words.getLast?
  return ⟨words.dropLast, last⟩

end Reckoner.Toml
