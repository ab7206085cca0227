import Reckoner.Engine.Error
import Reckoner.Engine.Value

/-!
# Exact simplification

Simplification works from the leaves to the root. Arithmetic on exact numbers is
carried out exactly as long as the parts stay in range, and approximately beyond.
Lists are combined item by item. What cannot be computed stays as it is, apart from
a few identities. Every node is a point at which a call that was asked to stop ends.
-/

namespace Reckoner

/-- A computation that collects warnings, also when it fails. -/
abbrev Run (α : Type) := ExceptT EngineError (StateM (List String)) α

namespace Run

/-- A point at which a call that was asked to stop ends. -/
def checkpoint (stop : Bool) : Run Unit := if stop then throw .stopped else pure ()

/-- A computation that gives no warnings. -/
def ofExcept {α : Type} : Except EngineError α → Run α
  | .ok a => pure a
  | .error e => throw e

/-- Add a warning unless it was given before. -/
def warn (message : String) : Run Unit :=
  modify fun warnings => if warnings.contains message then warnings else warnings ++ [message]

end Run

/-- The tolerance within which a double counts as a whole number. -/
def wholeTolerance : Float := 1e-12

/-- The whole number that a double is close to; only below `10 ^ 15`. -/
def nearWhole? (x : Float) : Option Int :=
  let n := roundHalfAway x
  if (x - n).abs < wholeTolerance && n.abs < 1e15 then some (wholeValue n) else none

namespace Fraction

/-- The exact root `a ^ (p / q)` of a natural number, if there is one: the candidate
next to the approximate root is raised to the power `q` and compared with `a ^ p`. -/
def root? (a b : Fraction) : Option Fraction := do
  if !a.isWhole || a.num < 0 then failure
  let candidate ← nearWhole? (Float.pow a.toFloat b.toFloat)
  if 0x100000000 ≤ b.den then failure
  let raised ← power? candidate b.den.toNat
  let target ← a.pow? b.num
  if ofInt raised = target then return ofInt candidate else failure

end Fraction

namespace Expr

mutual

/-- The negated expression, without a double negation. Lists are negated item by item. -/
def negate : Expr → Expr
  | exact q =>
    match q.neg? with
    | some p => exact p
    | none => real (-q.toFloat)
  | real x => real (-x)
  | neg a => a
  | list as => list (negateAll as)
  | e => neg e

/-- The negated expressions. -/
def negateAll : List Expr → List Expr
  | [] => []
  | a :: as => negate a :: negateAll as

end

/-- Arithmetic on exact numbers; nothing if the result is to stay symbolic. Results
out of range are approximated, but roots that are not whole stay as they are. -/
def foldExact (f : Operation) (a b : Fraction) : Except EngineError (Option Expr) :=
  let approximate := some (real (f.apply a.toFloat b.toFloat))
  let orApproximate (folded : Option Fraction) := (folded.map exact).or approximate
  match f with
  | .add => .ok (orApproximate (a.add? b))
  | .subtract => .ok (orApproximate (a.sub? b))
  | .multiply => .ok (orApproximate (a.mul? b))
  | .divide => if b.isZero then .error .divisionByZero else .ok (orApproximate (a.div? b))
  | .power =>
    if a.isZero && b.num < 0 then .error .divisionByZero
    else if b.isWhole then .ok (orApproximate (a.pow? b.num))
    else .ok ((a.root? b).map exact)

/-- The exact whole number `n`. -/
def isExactly (n : Int) : Expr → Bool
  | exact q => q == Fraction.ofInt n
  | _ => false

/-- The identities of zero and one, and what equal operands give. -/
def applyIdentities (f : Operation) (a b : Expr) : Expr :=
  match f with
  | .add =>
    if a.isExactly 0 then b else if b.isExactly 0 then a else binary .add a b
  | .subtract =>
    if b.isExactly 0 then a
    else if same a b then ofInt 0
    else if a.isExactly 0 then negate b
    else binary .subtract a b
  | .multiply =>
    if a.isExactly 0 || b.isExactly 0 then ofInt 0
    else if a.isExactly 1 then b
    else if b.isExactly 1 then a
    else binary .multiply a b
  | .divide =>
    if b.isExactly 1 then a else if same a b then ofInt 1 else binary .divide a b
  | .power =>
    if b.isExactly 0 then ofInt 1 else if b.isExactly 1 then a else binary .power a b

/-- Arithmetic on two expressions that are no lists. -/
def foldScalar (f : Operation) (a b : Expr) : Except EngineError Expr :=
  match a, b with
  | exact p, exact q => (foldExact f p q).map fun folded => folded.getD (binary f a b)
  | _, _ =>
    if a.isNumber && b.isNumber then
      match value? none a, value? none b with
      | some x, some y =>
        if f == .divide && y == 0.0 then .error .divisionByZero else .ok (real (f.apply x y))
      | _, _ => .ok (applyIdentities f a b)
    else .ok (applyIdentities f a b)

mutual

/-- Arithmetic of an expression that is no list with any other. -/
def foldRight (f : Operation) (a : Expr) : Expr → Except EngineError Expr
  | list bs => (foldRightAll f a bs).map list
  | b => foldScalar f a b

/-- Combine with each item. -/
def foldRightAll (f : Operation) (a : Expr) : List Expr → Except EngineError (List Expr)
  | [] => .ok []
  | b :: bs => do
    let c ← foldRight f a b
    return c :: (← foldRightAll f a bs)

end

mutual

/-- Arithmetic, item by item where lists take part; two lists need the same length. -/
def foldBinary (f : Operation) : Expr → Expr → Except EngineError Expr
  | list as, list bs =>
    if as.length = bs.length then (foldPairs f as bs).map list
    else .error (.notConformable as.length bs.length)
  | list as, b => (foldLeftAll f as b).map list
  | a, b => foldRight f a b

/-- Combine the items of two lists in pairs. -/
def foldPairs (f : Operation) : List Expr → List Expr → Except EngineError (List Expr)
  | a :: as, b :: bs => do
    let c ← foldBinary f a b
    return c :: (← foldPairs f as bs)
  | _, _ => .ok []

/-- Combine each item with one expression. -/
def foldLeftAll (f : Operation) : List Expr → Expr → Except EngineError (List Expr)
  | [], _ => .ok []
  | a :: as, b => do
    let c ← foldBinary f a b
    return c :: (← foldLeftAll f as b)

end

/-- Decide a comparison of values, of truth values, or of equal expressions. -/
def foldCompare (f : Relation) (a b : Expr) : Expr :=
  match value? none a, value? none b with
  | some x, some y => boolean (f.holds x y)
  | _, _ =>
    match f, a, b with
    | .equal, boolean p, boolean q => boolean (p == q)
    | .notEqual, boolean p, boolean q => boolean (p != q)
    | .equal, a, b => if same a b then boolean true else compare f a b
    | .lessEqual, a, b => if same a b then boolean true else compare f a b
    | .greaterEqual, a, b => if same a b then boolean true else compare f a b
    | f, a, b => compare f a b

/-- An approximate number as it stands. -/
def isReal : Expr → Bool
  | real _ => true
  | _ => false

/-- Compute a call whose arguments have values. A whole result is exact, any other is
kept only if an argument was approximate; the rest stays a call, with a warning if
the function refused its arguments. -/
def foldCall (name : String) (as : List Expr) : Run Expr :=
  match values? none as with
  | none => return call name as
  | some xs =>
    match Numeric.call name xs with
    | .ok x =>
      if x.isFinite then
        match nearWhole? x with
        | some n => return ofInt n
        | none => return if as.any isReal then real x else call name as
      else do
        Run.warn (name ++ " has no finite value for the given arguments")
        return call name as
    | .error .unknown => return call name as
    | .error (.arity expected actual) => do
      Run.warn (name ++ " called with " ++ toString actual ++ " argument(s); " ++ expected ++
        " expected")
      return call name as
    | .error e => do
      Run.warn e.message
      return call name as

mutual

/-- Simplify an expression. -/
def simplify (stop : Bool) : Expr → Run Expr
  | neg a => do
    Run.checkpoint stop
    return negate (← simplify stop a)
  | binary f a b => do
    Run.checkpoint stop
    let a ← simplify stop a
    let b ← simplify stop b
    Run.ofExcept (foldBinary f a b)
  | compare f a b => do
    Run.checkpoint stop
    let a ← simplify stop a
    let b ← simplify stop b
    return foldCompare f a b
  | call name as => do
    Run.checkpoint stop
    foldCall name (← simplifyAll stop as)
  | list as => do
    Run.checkpoint stop
    return list (← simplifyAll stop as)
  | e => do
    Run.checkpoint stop
    return e

/-- Simplify several expressions in order. -/
def simplifyAll (stop : Bool) : List Expr → Run (List Expr)
  | [] => return []
  | a :: as => do
    let a ← simplify stop a
    return a :: (← simplifyAll stop as)

end

end Expr

end Reckoner
