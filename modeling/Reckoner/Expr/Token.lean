import Reckoner.Decimal.Reading
import Reckoner.Decimal.Text
import Reckoner.Expr.Basic
import Reckoner.Text.Blank

/-!
# Tokens

The text of an expression is a sequence of numbers, names, signs and brackets,
with blanks anywhere between them. `scan` reads one token off the front of a text,
`scanAll` reads all of them and says what stopped it before the end, if anything did.
-/

namespace Reckoner

/-- The three pairs of brackets. -/
inductive Bracket where
  | round
  | square
  | curly
  deriving DecidableEq, Repr

/-- The smallest parts of an expression's text. -/
inductive Token where
  | integer (value : Int)
  | decimal (value : Float)
  | name (text : String)
  | boolean (value : Bool)
  | operation (operation : Operation)
  | relation (relation : Relation)
  | opening (bracket : Bracket)
  | closing (bracket : Bracket)
  | comma
  deriving Repr

namespace Bracket

/-- The bracket that opens a pair. -/
def opener : Bracket → String
  | round => "("
  | square => "["
  | curly => "\x7b"

/-- The bracket that closes a pair. -/
def closer : Bracket → String
  | round => ")"
  | square => "]"
  | curly => "\x7d"

end Bracket

namespace Token

/-- How a token is written. -/
def text : Token → String
  | integer n => toString n
  | decimal x => Decimal.plain x
  | name s => s
  | boolean true => "True"
  | boolean false => "False"
  | operation f => f.sign
  | relation f => f.sign
  | opening b => b.opener
  | closing b => b.closer
  | comma => ","

/-- How a token is called in a message, or the end of the text in its place. -/
def called : Option Token → String
  | some t => t.text
  | none => "end of input"

/-- The token is this relation, operation, bracket or comma. -/
def isSign : Token → Token → Bool
  | operation f, operation g => f == g
  | relation f, relation g => f == g
  | opening a, opening b => a == b
  | closing a, closing b => a == b
  | comma, comma => true
  | _, _ => false

end Token

/-- Why a text is no expression. -/
inductive ParseError where
  /-- The digits, point and exponent form no number. -/
  | badNumber (spelling : String)
  /-- An equality sign has two strokes. -/
  | singleEquals
  /-- No token starts with this character. -/
  | strayCharacter (c : Char)
  /-- No operand starts with this token. -/
  | unexpected (found : Option Token)
  /-- A bracket was not closed. -/
  | missing (wanted : Token) (found : Option Token)
  /-- The expression ends before the text. -/
  | trailing (found : Token)
  /-- Too many levels, of brackets and signs or of the tree. -/
  | nestedTooDeeply
  deriving Repr

namespace ParseError

/-- The wording of an error. -/
def message : ParseError → String
  | badNumber spelling => "invalid number '" ++ spelling ++ "': invalid float literal"
  | singleEquals => "unexpected character '='. Did you mean '=='?"
  | strayCharacter c => "unexpected character '" ++ String.singleton c ++ "'"
  | unexpected found => "unexpected token: " ++ Token.called found
  | missing wanted found => "expected " ++ wanted.text ++ ", found " ++ Token.called found
  | trailing found => "unexpected token after expression: " ++ found.text
  | nestedTooDeeply => "expression nested too deeply"

end ParseError

namespace Token

/-! ## Numbers -/

/-- The parts of a written number. -/
structure Numeral where
  /-- The digits before the point. -/
  whole : List Char
  /-- The digits after the point, if there is a point. -/
  fraction : Option (List Char)
  /-- The sign and the digits of the exponent, if there is one. -/
  power : Option (Bool × List Char)

namespace Numeral

/-- The point and the digits after it, if a point stands at the front. -/
def spanFraction : List Char → Option (List Char) × List Char
  | '.' :: rest => (some (Decimal.spanDigits rest).1, (Decimal.spanDigits rest).2)
  | s => (none, s)

/-- The exponent, if a mark stands at the front with a digit or a minus sign behind it. -/
def spanPower : List Char → Option (Bool × List Char) × List Char
  | 'E' :: '-' :: rest => (some (true, (Decimal.spanDigits rest).1), (Decimal.spanDigits rest).2)
  | 'E' :: c :: rest =>
    if c.isDigit then
      (some (false, (Decimal.spanDigits (c :: rest)).1), (Decimal.spanDigits (c :: rest)).2)
    else (none, 'E' :: c :: rest)
  | s => (none, s)

/-- Cut off a number: digits with at most one point, then an exponent. -/
def span (s : List Char) : Numeral × List Char :=
  let (whole, rest) := Decimal.spanDigits s
  let (fraction, rest) := spanFraction rest
  let (power, rest) := spanPower rest
  (⟨whole, fraction, power⟩, rest)

/-- A fraction takes nothing that was not there. -/
theorem spanFraction_length (s : List Char) : (spanFraction s).2.length ≤ s.length := by
  unfold spanFraction
  split
  · rename_i rest
    exact Nat.le_succ_of_le (Decimal.spanDigits_length rest)
  · exact Nat.le_refl _

/-- An exponent takes nothing that was not there. -/
theorem spanPower_length (s : List Char) : (spanPower s).2.length ≤ s.length := by
  unfold spanPower
  split
  · rename_i rest
    exact Nat.le_succ_of_le (Nat.le_succ_of_le (Decimal.spanDigits_length rest))
  · rename_i c rest _
    split
    · exact Nat.le_succ_of_le (Decimal.spanDigits_length (c :: rest))
    · exact Nat.le_refl _
  · exact Nat.le_refl _

/-- The number as it was written, with a small exponent mark. -/
def spelling (n : Numeral) : String :=
  let fraction :=
    match n.fraction with
    | some digits => '.' :: digits
    | none => []
  let power :=
    match n.power with
    | some (negative, digits) => 'e' :: (if negative then '-' :: digits else digits)
    | none => []
  String.ofList (n.whole ++ fraction ++ power)

/-- An exact integer, or a decimal when there is a point, an exponent, or no room for
an exact integer. A point needs a digit beside it, an exponent one behind it. -/
def token (n : Numeral) : Except ParseError Token :=
  let fraction := n.fraction.getD []
  let digits := n.whole ++ fraction
  let coefficient := Nat.ofDigitChars 10 digits 0
  if digits.isEmpty then .error (.badNumber n.spelling)
  else
    match n.power with
    | some (negative, power) =>
      if power.isEmpty then .error (.badNumber n.spelling)
      else
        let exponent : Int := Nat.ofDigitChars 10 power 0
        let exponent := if negative then -exponent else exponent
        .ok (.decimal (Decimal.nearest coefficient (exponent - fraction.length)))
    | none =>
      if n.fraction.isNone && coefficient ≤ Fraction.greatest then .ok (.integer coefficient)
      else .ok (.decimal (Decimal.nearest coefficient (-fraction.length)))

end Numeral

/-! ## Names and signs -/

/-- The characters of a name: letters, digits and the underscore, of ASCII only. -/
def isWord (c : Char) : Bool := c.isAlphanum || c == '_'

/-- A name starts with a letter or an underscore. -/
def isWordStart (c : Char) : Bool := c.isAlpha || c == '_'

/-- Two names are truth values. -/
def ofWord (s : String) : Token :=
  if s = "True" then boolean true
  else if s = "False" then boolean false
  else name s

/-- The token of one character. -/
def ofChar? : Char → Option Token
  | '+' => some (operation .add)
  | '-' => some (operation .subtract)
  | '*' => some (operation .multiply)
  | '/' => some (operation .divide)
  | '^' => some (operation .power)
  | '(' => some (opening .round)
  | ')' => some (closing .round)
  | '[' => some (opening .square)
  | ']' => some (closing .square)
  | '\x7b' => some (opening .curly)
  | '\x7d' => some (closing .curly)
  | ',' => some comma
  | '<' => some (relation .less)
  | '>' => some (relation .greater)
  | _ => none

/-- The token of a character followed by an equality stroke. -/
def ofPair? : Char → Option Token
  | '<' => some (relation .lessEqual)
  | '>' => some (relation .greaterEqual)
  | '=' => some (relation .equal)
  | '!' => some (relation .notEqual)
  | _ => none

/-- The token of one character, or why there is none. -/
def ofSingle (c : Char) : Except ParseError Token :=
  match ofChar? c with
  | some t => .ok t
  | none => .error (if c = '=' then .singleEquals else .strayCharacter c)

/-- Read a sign of two strokes if there is one, otherwise of one. -/
def scanSign (c : Char) (rest : List Char) : Except ParseError (Token × List Char) :=
  match rest with
  | '=' :: rest' =>
    match ofPair? c with
    | some t => .ok (t, rest')
    | none => (ofSingle c).map fun t => (t, rest)
  | _ => (ofSingle c).map fun t => (t, rest)

/-! ## Texts -/

/-- Read the token that starts with `c`. -/
def scan (c : Char) (rest : List Char) : Except ParseError (Token × List Char) :=
  if c.isDigit || c == '.' then
    let (numeral, rest) := Numeral.span (c :: rest)
    numeral.token.map fun t => (t, rest)
  else if isWordStart c then
    .ok (ofWord (String.ofList (c :: rest.takeWhile isWord)), rest.dropWhile isWord)
  else scanSign c rest

/-- A mapped computation gives what the computation gave, mapped. -/
theorem map_eq_ok {ε α β : Type} {f : α → β} {x : Except ε α} {b : β}
    (h : x.map f = .ok b) : ∃ a, x = .ok a ∧ f a = b := by
  cases x with
  | error e => cases h
  | ok a => exact ⟨a, rfl, Except.ok.inj h⟩

/-- A sign takes at most one more character than the first. -/
private theorem scanSign_length {c : Char} {rest r : List Char} {t : Token}
    (h : scanSign c rest = .ok (t, r)) : r.length ≤ rest.length := by
  unfold scanSign at h
  split at h
  · split at h
    · cases h
      exact Nat.le_succ _
    · obtain ⟨_, _, he⟩ := map_eq_ok h
      cases he
      exact Nat.le_refl _
  · obtain ⟨_, _, he⟩ := map_eq_ok h
    cases he
    exact Nat.le_refl _

/-- A number that starts with a digit or a point uses up its first character. -/
theorem Numeral.span_length_lt {c : Char} (rest : List Char) (h : c.isDigit || c == '.') :
    (Numeral.span (c :: rest)).2.length ≤ rest.length := by
  refine Nat.le_trans (spanPower_length _) ?_
  by_cases hd : c.isDigit = true
  · refine Nat.le_trans (spanFraction_length _) ?_
    rw [List.dropWhile_cons, if_pos hd]
    exact Decimal.spanDigits_length rest
  · have hc : c = '.' := by simpa [hd] using h
    subst hc
    exact Decimal.spanDigits_length rest

/-- A token takes at least the character that it starts with. -/
theorem scan_length {c : Char} {rest r : List Char} {t : Token}
    (h : scan c rest = .ok (t, r)) : r.length ≤ rest.length := by
  unfold scan at h
  split at h
  · rename_i hc
    obtain ⟨_, _, he⟩ := map_eq_ok h
    cases he
    exact Numeral.span_length_lt rest hc
  · split at h
    · cases h
      exact (List.dropWhile_sublist _).length_le
    · exact scanSign_length h

/-- All tokens of a text, up to the first error. -/
def scanAll (s : List Char) : List Token × Option ParseError :=
  match s with
  | [] => ([], none)
  | c :: rest =>
    if Text.isBlank c then scanAll rest
    else
      match _h : scan c rest with
      | .error e => ([], some e)
      | .ok (t, rest') => (t :: (scanAll rest').1, (scanAll rest').2)
termination_by s.length
decreasing_by
  · exact Nat.lt_succ_self _
  · exact Nat.lt_succ_of_le (scan_length _h)

end Token

end Reckoner
