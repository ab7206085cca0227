import Mathlib.Algebra.Order.Field.Power
import Reckoner.Proofs.Expr.Meaning

/-!
# Exact values

The exact value of an expression is a rational number or a vector of values. Arithmetic works
item by item on vectors, and a number beside a vector is combined with each item. Vectors of
different lengths have no value together, nor has a quotient by zero or a negative power of
zero; what a root is worth is left open, except where it is a natural number.
-/

namespace Reckoner

/-- What an expression without approximate parts is worth. -/
inductive Quantity where
  | scalar (value : ℚ)
  | vector (items : List Quantity)

namespace Quantity

mutual

/-- The negated quantity, item by item. -/
def neg : Quantity → Quantity
  | scalar a => scalar (-a)
  | vector as => vector (negAll as)

/-- The negated quantities. -/
def negAll : List Quantity → List Quantity
  | [] => []
  | a :: as => neg a :: negAll as

end

variable (f : ℚ → ℚ → Option ℚ)

mutual

/-- Combine a number with a quantity. -/
def liftRight (a : ℚ) : Quantity → Option Quantity
  | scalar b => (f a b).map scalar
  | vector bs => (liftRightAll a bs).map vector

/-- Combine a number with each item. -/
def liftRightAll (a : ℚ) : List Quantity → Option (List Quantity)
  | [] => some []
  | b :: bs => do
    let c ← liftRight a b
    return c :: (← liftRightAll a bs)

end

mutual

/-- Combine two quantities; vectors need the same length. -/
def lift : Quantity → Quantity → Option Quantity
  | vector as, vector bs =>
    if as.length = bs.length then (liftPairs as bs).map vector else none
  | vector as, scalar b => (liftLeftAll as b).map vector
  | scalar a, b => liftRight f a b

/-- Combine the items of two vectors in pairs. -/
def liftPairs : List Quantity → List Quantity → Option (List Quantity)
  | a :: as, b :: bs => do
    let c ← lift a b
    return c :: (← liftPairs as bs)
  | _, _ => some []

/-- Combine each item with a number. -/
def liftLeftAll : List Quantity → ℚ → Option (List Quantity)
  | [], _ => some []
  | a :: as, b => do
    let c ← lift a (scalar b)
    return c :: (← liftLeftAll as b)

end

end Quantity

/-- How symbols and roots are read. A root may be missing, but not where it is natural. -/
structure Reading where
  /-- The value of a symbol. -/
  symbol : String → ℚ
  /-- The power with an exponent that is not whole. -/
  root : ℚ → ℚ → Option ℚ
  /-- The root is known where it is the natural root of a natural number. -/
  root_natural : ∀ (a c : ℕ) (b : ℚ), b.den ≠ 1 → a ≠ 0 ∨ 0 < b →
    (c : ℚ) ^ b.den = (a : ℚ) ^ b.num → root a b = some (c : ℚ)

namespace Reading

variable (r : Reading)

/-- The value of an operation on two numbers. -/
def operate : Operation → ℚ → ℚ → Option ℚ
  | .add, a, b => some (a + b)
  | .subtract, a, b => some (a - b)
  | .multiply, a, b => some (a * b)
  | .divide, a, b => if b = 0 then none else some (a / b)
  | .power, a, b =>
    if a = 0 ∧ b < 0 then none
    else if b.den = 1 then some (a ^ b.num)
    else r.root a b

mutual

/-- The exact value of an expression, if it has one. -/
def quantity? : Expr → Option Quantity
  | .exact q => some (.scalar q.value)
  | .symbol name => some (.scalar (r.symbol name))
  | .neg a => (quantity? a).map Quantity.neg
  | .binary f a b => do (← quantity? a).lift (r.operate f) (← quantity? b)
  | .list as => (quantities? as).map Quantity.vector
  | .real _ | .boolean _ | .compare .. | .call .. => none

/-- The exact values of several expressions, if all of them have one. -/
def quantities? : List Expr → Option (List Quantity)
  | [] => some []
  | a :: as => do
    let v ← quantity? a
    return v :: (← quantities? as)

end

end Reading

end Reckoner
