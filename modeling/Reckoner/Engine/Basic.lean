import Reckoner.Engine.Approximate
import Reckoner.Expr.Grammar
import Reckoner.Expr.Typeset

/-!
# Engines

An engine checks, evaluates, approximates, draws and displays expressions given as
text. Between calls it keeps the warnings that no result has taken along, and whether
it was asked to stop. `Engine` says what a pipeline expects of any engine; `builtin`
is the engine made from the exact simplification and the numeric approximation here.
-/

namespace Reckoner

/-- A text and the problems that came up while it was produced. -/
structure Evaluation where
  /-- The text of the result. -/
  text : String
  /-- The problems, in order. -/
  problems : List String
  deriving DecidableEq, Repr

/-- What an engine does, over states of type `σ`. A call gives its outcome and the
state that it leaves behind. -/
structure Engine (σ : Type) where
  /-- The state of a new engine. -/
  fresh : σ
  /-- The canonical text of an expression. -/
  validate : String → σ → Except EngineError String × σ
  /-- The symbolic value. -/
  evaluate : String → σ → Except EngineError Evaluation × σ
  /-- The approximate value with a number of places. -/
  calculate : String → Nat → σ → Except EngineError Evaluation × σ
  /-- Points of the graph over the symbol of the horizontal axis, between two bounds. -/
  draw : (expression axis origin bound : String) → σ → Except EngineError Evaluation × σ
  /-- The display form. -/
  display : String → σ → Except EngineError String × σ
  /-- Ask the engine to stop. -/
  requestStop : σ → σ
  /-- Take the request back. -/
  clearStop : σ → σ
  /-- The engine was asked to stop. -/
  isStopping : σ → Bool
  /-- Forget what was left behind by earlier calls. -/
  reset : σ → σ

namespace Builtin

/-- What the built-in engine keeps between calls. -/
structure State where
  /-- It was asked to stop. -/
  stop : Bool
  /-- The warnings that no result has taken along. -/
  warnings : List String
  deriving DecidableEq, Repr

namespace State

/-- Run a computation; the warnings stay. -/
def run {α : Type} (s : State) (r : Bool → Run α) : Except EngineError α × State :=
  let (outcome, warnings) := r s.stop |>.run s.warnings
  (outcome, { s with warnings })

/-- Run a computation whose result takes the warnings along. -/
def finish (s : State) (r : Bool → Run String) : Except EngineError Evaluation × State :=
  let (outcome, warnings) := r s.stop |>.run s.warnings
  match outcome with
  | .error e => (.error e, { s with warnings })
  | .ok text => (.ok ⟨text, warnings⟩, { s with warnings := [] })

end State

/-- Read an expression. -/
def parse (text : String) : Except EngineError Expr :=
  match Grammar.parse text with
  | .ok e => .ok e
  | .error e => .error (.parse e.message)

/-- Read and simplify an expression. -/
def simplified (stop : Bool) (text : String) : Run Expr := do
  (← Run.ofExcept (parse text)).simplify stop

/-- The symbolic value. -/
def evaluate (text : String) (stop : Bool) : Run String := do
  return (← simplified stop text).print none

/-- The approximate value of the simplified expression. -/
def calculate (text : String) (places : Nat) (stop : Bool) : Run String := do
  return (← (← simplified stop text).numericize stop).print (some places)

/-! ## Drawing -/

/-- The number of intervals between the points of a drawing. -/
def intervals : Nat := 100

/-- The number of places of the coordinates. -/
def pointPlaces : Nat := 6

/-- The finite value of a bound. -/
def boundValue (stop : Bool) (text : String) : Run Float := do
  match (← simplified stop text).value? none with
  | some x => if x.isFinite then return x else throw (.badBound text)
  | none => throw (.badBound text)

/-- Truth values, comparisons and lists are not drawn. -/
def isDrawable : Expr → Bool
  | .boolean _ | .compare .. | .list _ => false
  | _ => true

/-- The place of a sample. What should be zero but for rounding is zero. -/
def place (start step : Float) (i : Nat) : Float :=
  let x := start + step * Float.ofNat i
  if x.abs < step * 1e-9 then 0.0 else x

/-- The text of a point. -/
def pointText (x y : Float) : String :=
  "\x7b" ++ Decimal.rounded x pointPlaces ++ "," ++ Decimal.rounded y pointPlaces ++ "\x7d"

/-- The point of the graph over `x`, unless it has no finite height. -/
def point? (e : Expr) (axis : String) (x : Float) : Option String :=
  match e.value? (some (axis, x)) with
  | some y => if y.isFinite then some (pointText x y) else none
  | none => none

/-- The points of a graph at equal distances, both ends included. -/
def points (e : Expr) (axis : String) (start stop : Float) : List (Option String) :=
  let step := (stop - start) / Float.ofNat intervals
  (List.range (intervals + 1)).map fun i => point? e axis (place start step i)

/-- The points of the graph of an expression. -/
def draw (text axis origin bound : String) (stop : Bool) : Run String := do
  let start ← boundValue stop origin
  let finish ← boundValue stop bound
  if finish ≤ start then throw (.emptyDomain origin bound)
  let e ← simplified stop text
  if !isDrawable e then throw (.notDrawable text)
  let isFree (name : String) := name != axis && (Numeric.constant? name).isNone
  match e.symbols.find? isFree with
  | some name => throw (.unbound name)
  | none => pure ()
  Run.checkpoint stop
  let samples := points e axis start finish
  let drawn := samples.filterMap id
  if drawn.isEmpty then throw (.noRealValues text)
  let skipped := samples.length - drawn.length
  if 0 < skipped then
    modify (· ++ [toString skipped ++ " sample(s) outside the real domain were skipped"])
  return "\x7b" ++ String.intercalate "," drawn ++ "\x7d"

end Builtin

/-- The built-in engine. Checking and displaying do not look at the request to stop. -/
def Engine.builtin : Engine Builtin.State where
  fresh := ⟨false, []⟩
  validate text s := ((Builtin.parse text).map (Expr.print none), s)
  evaluate text s := s.finish (Builtin.evaluate text)
  calculate text places s := s.finish (Builtin.calculate text places)
  draw text axis origin bound s := s.finish (Builtin.draw text axis origin bound)
  display text s := ((Builtin.parse text).map Expr.typeset, s)
  requestStop s := { s with stop := true }
  clearStop s := { s with stop := false }
  isStopping s := s.stop
  reset _ := ⟨false, []⟩

end Reckoner
