import Reckoner.Service.Basic
import Reckoner.Shape.Pattern

/-!
# Classification

The text alone does not tell a function such as `x+2` from a number such as `Sqrt(2)`.
So the shape of the evaluated expression counts, and if that is still a function, the
shape of an approximation decides whether it is a number after all.
-/

namespace Reckoner.Service

variable {σ : Type}

/-- The shape of a text without regard to blanks. -/
def shapeOf (text : String) : Shape := .ofChars (Text.dropBlanks text.toList)

/-- The shape of an expression. Assignments are not evaluated. -/
def classify (engine : Engine σ) (places : Nat) (expression : String) : Task σ Shape := do
  let s := Text.dropBlanks expression.toList
  if s.isEmpty then return .blank
  let text := String.ofList s
  let literal := Shape.ofChars s
  if literal = .assignment then return .assignment
  match shapeOf (← evaluate engine text).text with
  | .function =>
    match shapeOf (← calculate engine text places).text with
    | .numeric => return .numeric
    | _ => return .function
  | .unknown => return literal
  | .blank => return literal
  | shape => return shape

end Reckoner.Service
