/-!
# Shapes of expressions

The shape of an expression decides which results are computed for it. `blank` is the
shape of an empty text; every other shape can be evaluated.
-/

namespace Reckoner

/-- The kind of mathematical object that a text stands for. -/
inductive Shape where
  /-- Nothing but blanks. -/
  | blank
  /-- A letter is bound to a value. -/
  | assignment
  /-- Two sides are equated. -/
  | equation
  /-- A truth value. -/
  | boolean
  /-- A term in numbers and constants. -/
  | numeric
  /-- At least two rows of terms. -/
  | matrix
  /-- One row of terms. -/
  | vector
  /-- A term with a symbol or a call. -/
  | function
  /-- Anything else. -/
  | unknown
  deriving DecidableEq, Repr

namespace Shape

/-- The shapes that are evaluated, in their usual order. -/
def evaluable : List Shape :=
  [assignment, equation, boolean, numeric, matrix, vector, function, unknown]

/-- Only a blank text is not evaluated. -/
theorem mem_evaluable {s : Shape} : s ∈ evaluable ↔ s ≠ blank := by
  cases s <;> decide

/-- The name of a shape in messages. -/
def name : Shape → String
  | blank => "none"
  | assignment => "assignment"
  | equation => "equation"
  | boolean => "boolean"
  | numeric => "numeric"
  | matrix => "matrix"
  | vector => "vector"
  | function => "function"
  | unknown => "unknown"

/-- The name of a shape in records. -/
def title : Shape → String
  | blank => "None"
  | assignment => "Assignment"
  | equation => "Equation"
  | boolean => "Boolean"
  | numeric => "Numeric"
  | matrix => "Matrix"
  | vector => "Vector"
  | function => "Function"
  | unknown => "Unknown"

/-- All shapes. -/
def all : List Shape := blank :: evaluable

/-- The shape with a given title. -/
def ofTitle? (s : String) : Option Shape := all.find? (·.title == s)

theorem ofTitle?_title (s : Shape) : ofTitle? s.title = some s := by cases s <;> decide

end Shape

end Reckoner
