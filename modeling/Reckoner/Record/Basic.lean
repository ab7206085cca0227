import Reckoner.Engine.Basic
import Reckoner.Failure
import Reckoner.Shape.Basic

/-!
# Records

The outcome of a batch is a record for each expression: the expression as it was
given, its shape, and the results in the order in which they were computed.
-/

namespace Reckoner

namespace Evaluation

/-- A computation on a text that gave nothing but a problem. -/
def failed (text problem : String) : Evaluation := ⟨text, [problem]⟩

/-- Something went wrong. -/
def hasProblems (r : Evaluation) : Bool := !r.problems.isEmpty

/-- The same problems with another text. -/
def withText (r : Evaluation) (text : String) : Evaluation := { r with text }

end Evaluation

/-- What was computed. -/
inductive ResultKind where
  /-- The symbolic value. -/
  | evaluation
  /-- The approximate value. -/
  | calculation
  /-- Points of the graph. -/
  | drawing
  deriving DecidableEq, Repr

namespace ResultKind

/-- The name of a kind in records. -/
def title : ResultKind → String
  | evaluation => "Evaluation"
  | calculation => "Calculation"
  | drawing => "Drawing"

/-- The kind with a given title. -/
def ofTitle? (s : String) : Option ResultKind :=
  [evaluation, calculation, drawing].find? (·.title == s)

theorem ofTitle?_title (k : ResultKind) : ofTitle? k.title = some k := by cases k <;> decide

end ResultKind

/-- A result and what it is the result of. -/
structure TypedResult where
  /-- What was computed. -/
  kind : ResultKind
  /-- The result. -/
  result : Evaluation
  deriving DecidableEq, Repr

/-- The outcome for one expression. -/
structure Record where
  /-- The expression as it was given. -/
  expression : String
  /-- The shape of the expression. -/
  shape : Shape
  /-- The results in order. -/
  results : List TypedResult
  deriving DecidableEq, Repr

namespace Record

/-- The first result of a kind. -/
def result? (r : Record) (kind : ResultKind) : Option Evaluation :=
  (r.results.find? (·.kind == kind)).map (·.result)

/-- Some result has a problem. -/
def hasProblems (r : Record) : Bool := r.results.any (·.result.hasProblems)

/-- The record of an expression that was refused. -/
def rejected (expression : String) (cause : Failure) : Record :=
  ⟨expression, .unknown, [⟨.evaluation, .failed expression cause.message⟩]⟩

end Record

end Reckoner
