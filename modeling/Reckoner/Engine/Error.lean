/-!
# Errors of an engine

An engine call fails for one of five reasons. Four of them carry what went wrong in
the engine's own words, so that engines other than the built-in one can report too.
-/

namespace Reckoner

/-- Why an engine call gives no result. -/
inductive EngineError where
  /-- The text is no expression. -/
  | parse (message : String)
  /-- The expression cannot be evaluated. -/
  | evaluation (message : String)
  /-- A symbol has no value where one is needed. -/
  | unbound (name : String)
  /-- A value lies outside the domain of an operation. -/
  | domain (message : String)
  /-- The call was asked to stop. -/
  | stopped
  deriving DecidableEq, Repr

namespace EngineError

/-- The wording of an error. -/
def message : EngineError → String
  | parse m => "Parse error: " ++ m
  | evaluation m => "Evaluation error: " ++ m
  | unbound name => "Unbound variable: " ++ name
  | domain m => "Domain error: " ++ m
  | stopped => "Evaluation stopped by request"

/-- Nothing is divided by zero. -/
def divisionByZero : EngineError := domain "division by zero"

/-- Lists are combined item by item only if they have the same length. -/
def notConformable (m n : Nat) : EngineError :=
  evaluation ("lists of lengths " ++ toString m ++ " and " ++ toString n ++ " are not conformable")

/-- A drawing needs finite bounds. -/
def badBound (text : String) : EngineError :=
  evaluation ("drawing bound '" ++ text ++ "' is not a finite number")

/-- A drawing needs a lower bound below its upper bound. -/
def emptyDomain (origin bound : String) : EngineError :=
  domain ("empty drawing domain [" ++ origin ++ ", " ++ bound ++ "]")

/-- Truth values, comparisons and lists have no graph. -/
def notDrawable (text : String) : EngineError := evaluation ("'" ++ text ++ "' cannot be drawn")

/-- A graph has at least one point. -/
def noRealValues (text : String) : EngineError :=
  domain ("'" ++ text ++ "' has no real values on the domain")

end EngineError

end Reckoner
