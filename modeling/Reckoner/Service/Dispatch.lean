import Reckoner.Service.Classify
import Reckoner.Text.Identifier

/-!
# What is computed for a shape

A strategy is a recipe of results for the expressions of one shape. A table holds one
strategy for each shape that is evaluated; it can only be built when none is missing
and none is there twice.
-/

namespace Reckoner.Service

/-- The symbol on the horizontal axis where an expression has none. -/
def defaultAxis : String := "x"

/-- The symbol on the horizontal axis: the first single letter that is not a constant. -/
def drawingAxis (text : String) : String :=
  let isFree (w : Text.Identifier) := w.isSingle && !w.isCall && !Vocabulary.isConstant w.text
  match (Text.identifiers text.toList).find? isFree with
  | some w => w.text
  | none => defaultAxis

/-- A recipe of results. -/
inductive Strategy where
  /-- Evaluate and draw. -/
  | plot (shape : Shape)
  /-- Evaluate. -/
  | symbolic (shape : Shape)
  /-- Evaluate, and display what was evaluated without problems. -/
  | display (shape : Shape)
  /-- Evaluate, approximate and draw. -/
  | numeric
  /-- Compute nothing, since the batch has taken the assignment in. -/
  | assignment
  deriving DecidableEq, Repr

namespace Strategy

/-- The shape that a strategy is for. -/
def shape : Strategy → Shape
  | plot s => s
  | symbolic s => s
  | display s => s
  | numeric => .numeric
  | assignment => .assignment

variable {σ : Type}

/-- The drawing of an expression over the domain of the parameters. -/
def drawing (engine : Engine σ) (text : String) (p : Parameters) : Task σ TypedResult := do
  return ⟨.drawing, ← draw engine text (drawingAxis text) p.origin p.bound⟩

/-- Compute the results of a strategy. -/
def run (engine : Engine σ) (text : String) (p : Parameters) : Strategy → Task σ (List TypedResult)
  | plot _ => do
    let value ← evaluate engine text
    return [⟨.evaluation, value⟩, ← drawing engine text p]
  | symbolic _ => do
    return [⟨.evaluation, ← evaluate engine text⟩]
  | display _ => do
    let value ← evaluate engine text
    if value.hasProblems then return [⟨.evaluation, value⟩]
    else return [⟨.evaluation, ← Service.display engine value⟩]
  | numeric => do
    let value ← evaluate engine text
    let approximation ← calculate engine text p.places
    return [⟨.evaluation, value⟩, ⟨.calculation, approximation⟩, ← drawing engine text p]
  | assignment => return []

end Strategy

/-- One strategy for each shape. -/
structure Table where
  /-- The strategies in the order in which they were given. -/
  strategies : List Strategy
  deriving DecidableEq, Repr

namespace Table

/-- A table cannot be built or lacks an entry. -/
def failure (message : String) : Failure := .badSetting "strategies" message

/-- No strategy is for the shape. -/
def missing (shape : Shape) : Failure := failure ("no strategy registered for " ++ shape.name)

/-- Two strategies are for the shape. -/
def duplicate (shape : Shape) : Failure :=
  failure ("more than one strategy registered for " ++ shape.name)

/-- A strategy is for blank texts. -/
def forBlank : Failure := failure "no strategy may be registered for the None type"

/-- The strategy for a shape. -/
def get? (t : Table) (shape : Shape) : Option Strategy := t.strategies.find? (·.shape = shape)

/-- The shapes that have a strategy. -/
def shapes (t : Table) : List Shape := t.strategies.map Strategy.shape

/-- Enter one more strategy. -/
def enter (t : Table) (s : Strategy) : Except Failure Table :=
  if s.shape = .blank then .error forBlank
  else if (t.get? s.shape).isSome then .error (duplicate s.shape)
  else .ok ⟨t.strategies ++ [s]⟩

/-- Enter strategies in order. -/
def enterAll (t : Table) : List Strategy → Except Failure Table
  | [] => .ok t
  | s :: rest => do (← t.enter s).enterAll rest

/-- Build a table. The first entry that cannot be made counts, then the first shape
that is missing. -/
def make (strategies : List Strategy) : Except Failure Table := do
  let t ← enterAll ⟨[]⟩ strategies
  match Shape.evaluable.find? fun shape => (t.get? shape).isNone with
  | some shape => .error (missing shape)
  | none => return t

/-- The usual strategies. -/
def standardStrategies : List Strategy :=
  [.plot .function, .symbolic .equation, .symbolic .matrix, .display .boolean, .display .vector,
   .numeric, .assignment, .plot .unknown]

/-- The usual table. -/
def standard : Table := ⟨standardStrategies⟩

/-- The usual strategies make up a table. -/
theorem make_standardStrategies : make standardStrategies = .ok standard := rfl

variable {σ : Type}

/-- Compute the results for an expression of the given shape. -/
def dispatch (t : Table) (engine : Engine σ) (shape : Shape) (text : String) (p : Parameters) :
    Task σ (List TypedResult) :=
  match t.get? shape with
  | some strategy => strategy.run engine text p
  | none => throw (missing shape)

end Table

end Reckoner.Service
