import Reckoner.Engine.Simplify

/-!
# Numeric approximation

Approximation replaces every subtree that has a value by that value, the largest
subtrees first, and decides the comparisons that then have values on both sides.
-/

namespace Reckoner.Expr

/-- The value of a subtree as an expression, with a warning if it is not a number. -/
def approximated (x : Float) : Run Expr := do
  if x.isNaN then Run.warn "result is indeterminate"
  return real x

mutual

/-- Replace what has a value by its value. -/
def numericize (stop : Bool) : Expr → Run Expr
  | neg a => do
    Run.checkpoint stop
    match value? none (neg a) with
    | some x => approximated x
    | none => return negate (← numericize stop a)
  | binary f a b => do
    Run.checkpoint stop
    match value? none (binary f a b) with
    | some x => approximated x
    | none => return binary f (← numericize stop a) (← numericize stop b)
  | compare f a b => do
    Run.checkpoint stop
    return foldCompare f (← numericize stop a) (← numericize stop b)
  | call name as => do
    Run.checkpoint stop
    match value? none (call name as) with
    | some x => approximated x
    | none => return call name (← numericizeAll stop as)
  | list as => do
    Run.checkpoint stop
    return list (← numericizeAll stop as)
  | boolean b => do
    Run.checkpoint stop
    return boolean b
  | exact q => do
    Run.checkpoint stop
    approximated q.toFloat
  | real x => do
    Run.checkpoint stop
    approximated x
  | symbol name => do
    Run.checkpoint stop
    match symbolValue? none name with
    | some x => approximated x
    | none => return symbol name

/-- Replace what has a value in several expressions, in order. -/
def numericizeAll (stop : Bool) : List Expr → Run (List Expr)
  | [] => return []
  | a :: as => do
    let a ← numericize stop a
    return a :: (← numericizeAll stop as)

end

end Reckoner.Expr
