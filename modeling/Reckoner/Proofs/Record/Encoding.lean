import Reckoner.Proofs.Json.RoundTrip
import Reckoner.Record.Json

/-!
# Records read back

The text of a record names each field and each variant as the format prescribes, and it is read
back as the record, whatever characters its texts hold and however many results and problems
there are.
-/

namespace Reckoner

namespace Json

/-- A list of values is read back from an array if each of them is. -/
theorem arrayOf?_map {α : Type} {ofJson? : Json → Option α} {toJson : α → Json}
    (h : ∀ a, ofJson? (toJson a) = some a) (as : List α) :
    arrayOf? ofJson? (array (as.map toJson)) = some as := by
  rw [arrayOf?]
  induction as with
  | nil => rfl
  | cons a as ih =>
    rw [List.map_cons, List.mapM_cons, h, ih]
    rfl

theorem allTextual_map {α : Type} {toJson : α → Json} (h : ∀ a, isTextual (toJson a) = true)
    (as : List α) : allTextual (as.map toJson) = true := by
  induction as with
  | nil => rfl
  | cons a as ih => rw [List.map_cons, allTextual, h, ih, Bool.and_self]

theorem text?_text (s : String) : text? (text s) = some s := rfl

theorem isTextual_text (s : String) : isTextual (text s) = true := rfl

end Json

namespace Evaluation

/-- An evaluation is read back from its object. -/
theorem ofJson?_toJson (r : Evaluation) : ofJson? r.toJson = some r := by
  have hfields : r.toJson.fields? ["expressionText", "problems"] =
      some [.text r.text, .texts r.problems] := rfl
  have hproblems : (Json.texts r.problems).arrayOf? Json.text? = some r.problems :=
    Json.arrayOf?_map Json.text?_text r.problems
  rw [ofJson?, hfields]
  simp only [hproblems]
  rfl

theorem isTextual_toJson (r : Evaluation) : r.toJson.isTextual = true := by
  have hproblems : (Json.texts r.problems).isTextual = true :=
    Json.allTextual_map Json.isTextual_text r.problems
  simp only [toJson, Json.record, List.map_cons, List.map_nil, Json.isTextual,
    Json.membersTextual, hproblems, Option.isSome_some, Json.isTextual_text, Bool.and_self]

end Evaluation

namespace TypedResult

/-- A result is read back from its object. -/
theorem ofJson?_toJson (t : TypedResult) : ofJson? t.toJson = some t := by
  have hfields : t.toJson.fields? ["kind", "result"] =
      some [.text t.kind.title, t.result.toJson] := rfl
  have hkind : (Json.text t.kind.title).choice? ResultKind.ofTitle? = some t.kind :=
    ResultKind.ofTitle?_title t.kind
  rw [ofJson?, hfields]
  simp only [hkind, Evaluation.ofJson?_toJson]
  rfl

theorem isTextual_toJson (t : TypedResult) : t.toJson.isTextual = true := by
  simp only [toJson, Json.record, List.map_cons, List.map_nil, Json.isTextual,
    Json.membersTextual, t.result.isTextual_toJson, Option.isSome_some, Json.isTextual_text,
    Bool.and_self]

end TypedResult

namespace Record

/-- A record is read back from its object. -/
theorem ofJson?_toJson (r : Record) : ofJson? r.toJson = some r := by
  have hfields : r.toJson.fields? ["originalExpression", "type", "results"] =
      some [.text r.expression, .text r.shape.title,
        .array (r.results.map TypedResult.toJson)] := rfl
  have hshape : (Json.text r.shape.title).choice? Shape.ofTitle? = some r.shape :=
    Shape.ofTitle?_title r.shape
  rw [ofJson?, hfields]
  simp only [hshape, Json.arrayOf?_map TypedResult.ofJson?_toJson]
  rfl

theorem isTextual_toJson (r : Record) : r.toJson.isTextual = true := by
  have hresults : Json.allTextual (r.results.map TypedResult.toJson) = true :=
    Json.allTextual_map TypedResult.isTextual_toJson r.results
  simp only [toJson, Json.record, List.map_cons, List.map_nil, Json.isTextual,
    Json.membersTextual, hresults, Option.isSome_some, Json.isTextual_text, Bool.and_self]

/-- The line of a record holds its fields under their names, and is read back as the record. -/
theorem decode_encode (r : Record) :
    Json.ofText? r.encode = some (.object [
      (some "originalExpression", .string (some r.expression)),
      (some "type", .string (some r.shape.title)),
      (some "results", .array (r.results.map fun t => .object [
        (some "kind", .string (some t.kind.title)),
        (some "result", .object [
          (some "expressionText", .string (some t.result.text)),
          (some "problems", .array (t.result.problems.map fun p => .string (some p)))])]))]) ∧
      decode? r.encode = some r := by
  have htext : Json.ofText? r.encode = some r.toJson := Json.ofText?_compact r.isTextual_toJson
  refine ⟨htext, ?_⟩
  rw [decode?, htext, Option.bind_some, ofJson?_toJson]

example : encode ⟨"a\"b", .boolean, []⟩ =
    "\x7b\"originalExpression\":\"a\\\"b\",\"type\":\"Boolean\",\"results\":[]\x7d" := by
  decide +kernel

end Record

end Reckoner
