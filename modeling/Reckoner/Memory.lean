import Reckoner.Text.Identifier
import Reckoner.Vocabulary

/-!
# Assignments in a batch

A batch of expressions can bind single letters: `a=2` makes the following expressions
use `2` for `a`. Values are inserted as text, whole words at a time, and in brackets
unless nothing next to them could be drawn in. Constants are bound to the names that
the engine knows from the start.
-/

namespace Reckoner

/-- The bindings of a batch, the latest first. -/
structure Memory where
  /-- Names and the texts that they stand for. -/
  bindings : List (String × List Char)
  deriving DecidableEq, Repr

namespace Memory

/-- Only the constants are bound. -/
def initial : Memory := ⟨Vocabulary.nativeNames.map fun (name, native) => (name, native.toList)⟩

/-- The text that a name is bound to. -/
def binding? (m : Memory) (name : String) : Option (List Char) := m.bindings.lookup name

/-- Bind a name to a text, instead of what it was bound to. -/
def bind (m : Memory) (name : String) (value : List Char) : Memory := ⟨(name, value) :: m.bindings⟩

/-- A name is bound to the last value that was bound to it. -/
theorem binding?_bind (m : Memory) (name other : String) (value : List Char) :
    (m.bind name value).binding? other = if other = name then some value else m.binding? other := by
  simp only [binding?, bind, List.lookup_cons]
  by_cases h : other = name
  · simp only [h, beq_self_eq_true, if_true]
  · simp only [h, beq_eq_false_iff_ne.mpr h, if_false]

/-- The text that a name stands for: its binding, or the engine's name of a constant
that is written differently. -/
def resolve? (m : Memory) (name : String) : Option (List Char) :=
  match m.binding? name with
  | some value => some value
  | none =>
    match Vocabulary.constant? name with
    | some c => if c.engineName = name then none else some c.engineName.toList
    | none => none

/-- A text of letters, digits, points and underscores, which brackets do not change. -/
def isAtomic (value : List Char) : Bool :=
  !value.isEmpty && value.all fun c => Token.isWord c || c == '.'

/-- What is written in the place of a word. The names of calls are not replaced. Behind
a number even an atomic value needs brackets. -/
def replacement (m : Memory) (w : Text.Identifier) : Option (List Char) :=
  if w.isCall then none
  else (m.resolve? w.text).map fun value =>
    if isAtomic value && !w.followsNumber then value else '(' :: value ++ [')']

/-- Replace the words that stand for something. -/
def substitute (m : Memory) (s : List Char) : List Char := Text.replaceWords m.replacement s

/-- A single letter, an equality stroke, and some text without another stroke. -/
def splitAssignment? : List Char → Option (Char × List Char)
  | c :: '=' :: value =>
    if c.isAlpha && !value.isEmpty && !value.contains '=' then some (c, value) else none
  | _ => none

/-- What an expression did. -/
inductive Outcome where
  /-- The expression bound a letter to a text. -/
  | assigned (symbol : Char) (value : List Char)
  /-- The expression with values in the place of words. -/
  | substituted (text : List Char)
  deriving DecidableEq, Repr

/-- The binding as it is confirmed, or the expression. -/
def Outcome.text : Outcome → String
  | assigned symbol value => String.ofList (symbol :: ' ' :: '=' :: ' ' :: value)
  | substituted s => String.ofList s

/-- Take in an assignment, or replace the words of any other expression. Blanks do not
matter. The value of an assignment is replaced in as well. -/
def apply (m : Memory) (expression : String) : Outcome × Memory :=
  let s := Text.dropBlanks expression.toList
  match splitAssignment? s with
  | some (symbol, value) =>
    let value := m.substitute value
    (.assigned symbol value, m.bind (String.singleton symbol) value)
  | none => (.substituted (m.substitute s), m)

/-- The words of an expression that are neither called nor known, each once, in order. -/
def unboundSymbols (m : Memory) (expression : String) : List String :=
  let isUnbound (w : Text.Identifier) :=
    !(w.isCall || Vocabulary.isKeyword w.text || (m.resolve? w.text).isSome ||
      Vocabulary.isConstant w.text)
  (((Text.identifiers expression.toList).filter isUnbound).map Text.Identifier.text).foldl
    (fun seen name => if seen.contains name then seen else seen ++ [name]) []

end Memory

end Reckoner
