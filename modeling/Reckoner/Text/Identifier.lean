import Reckoner.Expr.Token

/-!
# Identifiers in a text

A text is cut into words and single characters. A word starts with a letter or an
underscore and is as long as possible, but a number does not belong to the letters
behind it: in `2x` there is the word `x`. The pieces put together give the text back,
so words can be replaced without touching anything else.
-/

namespace Reckoner.Text

/-- A word of a text and what stands next to it. -/
structure Identifier where
  /-- The word. -/
  name : List Char
  /-- The number of bytes before the word. -/
  start : Nat
  /-- A bracket that can hold arguments follows. -/
  isCall : Bool
  /-- A digit or a point precedes. -/
  followsNumber : Bool
  deriving DecidableEq, Repr

/-- A part of a text. -/
inductive Piece where
  | word (identifier : Identifier)
  | other (c : Char)
  deriving DecidableEq, Repr

/-- The number of bytes that a text takes. -/
def byteCount (s : List Char) : Nat := s.foldr (fun c n => c.utf8Size + n) 0

theorem byteCount_cons (c : Char) (s : List Char) : byteCount (c :: s) = c.utf8Size + byteCount s :=
  rfl

theorem byteCount_append (s r : List Char) : byteCount (s ++ r) = byteCount s + byteCount r := by
  induction s with
  | nil => exact (Nat.zero_add _).symm
  | cons c s ih => rw [List.cons_append, byteCount_cons, byteCount_cons, ih, Nat.add_assoc]

/-- The number of bytes before the end of the word. -/
def Identifier.stop (w : Identifier) : Nat := w.start + byteCount w.name

/-- The word as a string. -/
def Identifier.text (w : Identifier) : String := String.ofList w.name

/-- The word is a single letter or underscore. -/
def Identifier.isSingle (w : Identifier) : Bool := w.name.length == 1

/-- The text of a piece. -/
def Piece.chars : Piece → List Char
  | word w => w.name
  | other c => [c]

/-- A character inside a number. -/
def continuesNumber (c : Char) : Bool := c.isDigit || c == '.'

/-- A bracket that can hold arguments. -/
def opensArguments : List Char → Bool
  | c :: _ => c == '(' || c == '['
  | [] => false

/-- Cut a text into pieces, given what precedes it. -/
def pieces (followsNumber : Bool) (start : Nat) (s : List Char) : List Piece :=
  match s with
  | [] => []
  | c :: rest =>
    if Token.isWordStart c then
      let name := c :: rest.takeWhile Token.isWord
      let behind := rest.dropWhile Token.isWord
      .word ⟨name, start, opensArguments behind, followsNumber⟩ ::
        pieces false (start + byteCount name) behind
    else .other c :: pieces (continuesNumber c) (start + c.utf8Size) rest
termination_by s.length
decreasing_by
  · exact Nat.lt_succ_of_le (List.dropWhile_sublist _).length_le
  · exact Nat.lt_succ_self _

/-- The pieces of a whole text. -/
def piecesOf (s : List Char) : List Piece := pieces false 0 s

/-- The pieces make up the text. -/
theorem flatMap_chars_pieces (f : Bool) (n : Nat) (s : List Char) :
    (pieces f n s).flatMap Piece.chars = s := by
  fun_induction pieces f n s with
  | case1 => rfl
  | case2 f n c rest h name behind ih =>
    rw [List.flatMap_cons, ih]
    exact congrArg (c :: ·) List.takeWhile_append_dropWhile
  | case3 f n c rest h ih => rw [List.flatMap_cons, ih]; rfl

/-- The words of a text, in order. -/
def identifiers (s : List Char) : List Identifier :=
  (piecesOf s).filterMap fun piece => match piece with
    | .word w => some w
    | .other _ => none

/-- Replace some of the words of a text. -/
def replaceWords (replacement : Identifier → Option (List Char)) (s : List Char) : List Char :=
  (piecesOf s).flatMap fun piece => match piece with
    | .word w => (replacement w).getD w.name
    | .other c => [c]

/-- Without replacements the text stays as it is. -/
theorem replaceWords_none (s : List Char) : replaceWords (fun _ => none) s = s := by
  refine Eq.trans ?_ (flatMap_chars_pieces false 0 s)
  simp only [replaceWords, piecesOf]
  congr 1

end Reckoner.Text
