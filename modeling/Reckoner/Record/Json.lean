import Reckoner.Json.Reading
import Reckoner.Record.Basic

/-!
# Records as structured data

Records are written as objects with named fields in a fixed order. They are read back
from objects whatever the order and whatever other members there are, and from arrays
of their fields.
-/

namespace Reckoner

namespace Evaluation

/-- An evaluation as an object. -/
def toJson (r : Evaluation) : Json :=
  .record [("expressionText", .text r.text), ("problems", .texts r.problems)]

/-- The evaluation that a value stands for. -/
def ofJson? (j : Json) : Option Evaluation :=
  match j.fields? ["expressionText", "problems"] with
  | some [text, problems] => do return ⟨← text.text?, ← problems.arrayOf? Json.text?⟩
  | _ => none

end Evaluation

namespace TypedResult

/-- A result as an object. -/
def toJson (r : TypedResult) : Json :=
  .record [("kind", .text r.kind.title), ("result", r.result.toJson)]

/-- The result that a value stands for. -/
def ofJson? (j : Json) : Option TypedResult :=
  match j.fields? ["kind", "result"] with
  | some [kind, result] => do
    return ⟨← kind.choice? ResultKind.ofTitle?, ← Evaluation.ofJson? result⟩
  | _ => none

end TypedResult

namespace Record

/-- A record as an object. -/
def toJson (r : Record) : Json :=
  .record [("originalExpression", .text r.expression), ("type", .text r.shape.title),
    ("results", .array (r.results.map TypedResult.toJson))]

/-- The record that a value stands for. -/
def ofJson? (j : Json) : Option Record :=
  match j.fields? ["originalExpression", "type", "results"] with
  | some [expression, shape, results] => do
    return ⟨← expression.text?, ← shape.choice? Shape.ofTitle?,
      ← results.arrayOf? TypedResult.ofJson?⟩
  | _ => none

/-- A record on one line. -/
def encode (r : Record) : String := r.toJson.compact

/-- The record that a text stands for. -/
def decode? (s : String) : Option Record := (Json.ofText? s).bind ofJson?

end Record

end Reckoner
