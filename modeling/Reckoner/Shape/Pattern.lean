import Reckoner.Shape.Basic
import Reckoner.Text.Blank
import Reckoner.Text.DecimalDigit
import Reckoner.Vocabulary

/-!
# Recognising the shape of a text

The patterns are tried from the most particular to the most general. Terms in numbers
and constants are recognised from left to right: what can follow a part never starts
like its continuation, so the longest part is always the right one, and no choice has
to be taken back.
-/

namespace Reckoner.Shape

/-- Go past the digits at the front; at least one is needed. -/
def skipDigits (s : List Char) : Option (List Char) :=
  match s with
  | c :: _ => if Text.isDecimalDigit c then some (s.dropWhile Text.isDecimalDigit) else none
  | [] => none

/-- Go past digits with at most one point, which is not alone. -/
def skipPointed (s : List Char) : Option (List Char) :=
  match skipDigits s with
  | some ('.' :: rest) => some (rest.dropWhile Text.isDecimalDigit)
  | some rest => some rest
  | none =>
    match s with
    | '.' :: rest => skipDigits rest
    | _ => none

/-- Go past an exponent if there is one. -/
def skipExponent (s : List Char) : List Char :=
  match s with
  | 'E' :: '-' :: rest => (skipDigits rest).getD s
  | 'E' :: rest => (skipDigits rest).getD s
  | _ => s

/-- Go past a number. -/
def skipNumber (s : List Char) : Option (List Char) := (skipPointed s).map skipExponent

/-- Go past the name of a constant. -/
def skipConstant (s : List Char) : Option (List Char) :=
  if Vocabulary.isConstant (String.ofList (s.takeWhile Char.isAlpha)) then
    some (s.dropWhile Char.isAlpha)
  else none

/-- Go past a sign if there is one. -/
def skipSign : List Char → List Char
  | '-' :: rest => rest
  | '+' :: rest => rest
  | s => s

/-- Go past a number or a constant with an optional sign. -/
def skipTerm (s : List Char) : Option (List Char) :=
  (skipNumber (skipSign s)).or (skipConstant (skipSign s))

/-- Go past items with separators between them. -/
def skipSeries (isSeparator : Char → Bool) (item : List Char → Option (List Char))
    (s : List Char) : Option (List Char) :=
  match item s with
  | none => none
  | some [] => some []
  | some (c :: rest) =>
    if isSeparator c then
      if rest.length < s.length then skipSeries isSeparator item rest else none
    else some (c :: rest)
termination_by s.length

/-- The signs between terms. -/
def isTermSign (c : Char) : Bool := c == '-' || c == '+' || c == '*' || c == '/'

/-- Go past terms with signs between them. -/
def skipNumeric : List Char → Option (List Char) := skipSeries isTermSign skipTerm

/-- Go past a closing brace. -/
def skipClosing : List Char → Option (List Char)
  | '\x7d' :: rest => some rest
  | _ => none

/-- Go past terms between commas, in braces. -/
def skipRow : List Char → Option (List Char)
  | '\x7b' :: rest => (skipSeries (· == ',') skipNumeric rest).bind skipClosing
  | _ => none

/-- Go past at least two rows between commas, in braces. -/
def skipMatrix : List Char → Option (List Char)
  | '\x7b' :: rest =>
    match skipRow rest with
    | some (',' :: rest) => (skipSeries (· == ',') skipRow rest).bind skipClosing
    | _ => none
  | _ => none

/-- The whole text is of the given form. -/
def isWhole (skip : List Char → Option (List Char)) (s : List Char) : Bool := skip s == some []

/-- Two equality strokes stand somewhere next to each other. -/
def hasEquation : List Char → Bool
  | '=' :: '=' :: _ => true
  | _ :: rest => hasEquation rest
  | [] => false

/-- A letter, one equality stroke, and the rest of the line. -/
def isAssignment : List Char → Bool
  | c :: '=' :: d :: rest => c.isAlpha && d != '=' && !rest.contains '\n'
  | _ => false

/-- A sign between operands or a round bracket. -/
def isFunctionSign (c : Char) : Bool := ['-', '+', '*', '/', '^', '(', ')'].contains c

/-- A character that a term with symbols and calls may contain. -/
def isFunctionChar (c : Char) : Bool :=
  c.isAlphanum || isFunctionSign c || ['_', '.', ',', '\x7b', '\x7d', '<', '>', '=', '!'].contains c

/-- A term with a letter and a sign, and no strange character. -/
def isFunction (s : List Char) : Bool :=
  s.any Char.isAlpha && s.any isFunctionSign && s.all isFunctionChar

/-- The shape of a text. -/
def ofChars (s : List Char) : Shape :=
  if Text.allBlank s then blank
  else if hasEquation s then equation
  else if s == "True".toList || s == "False".toList then boolean
  else if isAssignment s then assignment
  else if isWhole skipMatrix s then matrix
  else if isWhole skipRow s then vector
  else if isWhole skipNumeric s then numeric
  else if isFunction s then function
  else unknown

/-- The shape of a text. -/
def ofText (s : String) : Shape := ofChars s.toList

end Reckoner.Shape
