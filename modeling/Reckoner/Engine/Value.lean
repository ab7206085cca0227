import Reckoner.Engine.Function
import Reckoner.Expr.Basic

/-!
# Approximate values

An expression over numbers, constants and numeric functions has an approximate
value. One symbol may be bound to a number, which then hides a constant of that
name; other symbols, truth values, comparisons and lists have no value.
-/

namespace Reckoner.Expr

/-- The value of a symbol under an optional binding. -/
def symbolValue? (binding : Option (String × Float)) (name : String) : Option Float :=
  match binding with
  | some (bound, x) => if bound = name then some x else Numeric.constant? name
  | none => Numeric.constant? name

mutual

/-- The approximate value of an expression. -/
def value? (binding : Option (String × Float)) : Expr → Option Float
  | exact q => some q.toFloat
  | real x => some x
  | symbol name => symbolValue? binding name
  | neg a => (value? binding a).map fun x => -x
  | binary f a b =>
    match value? binding a, value? binding b with
    | some x, some y => some (f.apply x y)
    | _, _ => none
  | call name as =>
    match values? binding as with
    | some xs => (Numeric.call name xs).toOption
    | none => none
  | boolean _ | compare .. | list _ => none

/-- The approximate values of several expressions, if all of them have one. -/
def values? (binding : Option (String × Float)) : List Expr → Option (List Float)
  | [] => some []
  | a :: as =>
    match value? binding a, values? binding as with
    | some x, some xs => some (x :: xs)
    | _, _ => none

end

end Reckoner.Expr
