import Reckoner.Memory
import Reckoner.Service.Dispatch
import Reckoner.Validation

/-!
# Batches

A batch is a list of expressions with common assignments. Each expression has its
values filled in, is checked, classified and evaluated, and gives one record. What an
expression is refused for stands in its record and does not affect the others. A batch
fails as a whole only if it has too many expressions or is interrupted.
-/

namespace Reckoner.Service

variable {σ : Type}

/-- The names are checked first, then the engine reads the expression. Gives the
normalized text. -/
def validate (engine : Engine σ) (expression : String) : Task σ String := do
  let text := Validation.normalize expression
  match Validation.checkGrammar text, Validation.checkSemantics text with
  | .error e, _ => throw e
  | .ok _, .error e => throw e
  | .ok _, .ok _ =>
    let _ ← validateSyntax engine text
    return text

/-- Validate an expression and say why it was refused; an interruption is no refusal. -/
def validateOrRefuse (engine : Engine σ) (expression : String) :
    Task σ (Except Failure String) := do
  try
    return .ok (← validate engine expression)
  catch e =>
    if e.isRecoverable then return .error e else throw e

/-- The record of an expression whose values are filled in. -/
def evaluateSubstituted (engine : Engine σ) (memory : Memory) (expression substituted : String)
    (p : Parameters) : Task σ Record := do
  match ← validateOrRefuse engine substituted with
  | .error e => return .rejected expression e
  | .ok text =>
    let shape ← classify engine (← getThe (Service σ)).settings.classification.places text
    let unbound := if shape = .unknown then (memory.unboundSymbols text).head? else none
    match unbound with
    | some symbol => return .rejected expression (.unrecognized symbol)
    | none => return ⟨expression, shape, ← Table.standard.dispatch engine shape text p⟩

/-- An expression has more characters than it may have. -/
def tooLong (limit : Nat) (expression : String) : Failure :=
  .exceeded "expression is too long" limit expression.length

/-- The record of one expression, and the assignments after it. -/
def evaluateOne (engine : Engine σ) (p : Parameters) (memory : Memory) (expression : String) :
    Task σ (Record × Memory) := do
  let limit := (← getThe (Service σ)).settings.limits.expressionLength
  if Text.allBlank expression.toList then return (⟨expression, .blank, []⟩, memory)
  else if limit < expression.length then
    return (.rejected expression (tooLong limit expression), memory)
  else
    match memory.apply expression with
    | (.assigned _ _, memory) =>
      let results ← Table.standard.dispatch engine .assignment expression p
      return (⟨expression, .assignment, results⟩, memory)
    | (.substituted s, memory) =>
      return (← evaluateSubstituted engine memory expression (String.ofList s) p, memory)

/-- The records of expressions in order. -/
def evaluateAll (engine : Engine σ) (p : Parameters) : Memory → List String → Task σ (List Record)
  | _, [] => return []
  | memory, expression :: rest => do
    let (record, memory) ← evaluateOne engine p memory expression
    return record :: (← evaluateAll engine p memory rest)

/-- The records of a batch. -/
def evaluateBatch (engine : Engine σ) (p : Parameters) (expressions : List String) :
    Task σ (List Record) := do
  let limit := (← getThe (Service σ)).settings.limits.batchSize
  if limit < expressions.length then
    throw (.exceeded "batch has too many expressions" limit expressions.length)
  else evaluateAll engine p .initial expressions

/-- The outcomes of several batches; none of them affects the records of another. -/
def evaluateBatches (engine : Engine σ) :
    List (List String × Parameters) → Service σ → List (Except Failure (List Record)) × Service σ
  | [], s => ([], s)
  | (expressions, p) :: rest, s =>
    let (outcome, s) := (evaluateBatch engine p expressions).run s
    let (outcomes, s) := evaluateBatches engine rest s
    (outcome :: outcomes, s)

/-- The shape of a single expression outside a batch. -/
def classifyAlone (engine : Engine σ) (expression : String) : Task σ Shape := do
  if Text.allBlank expression.toList then return .blank
  else
    match (Memory.initial.apply expression).1 with
    | .assigned _ _ => return .assignment
    | .substituted s =>
      let text ← validate engine (String.ofList s)
      classify engine (← getThe (Service σ)).settings.classification.places text

end Reckoner.Service
