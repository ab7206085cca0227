import Mathlib.Data.Rat.Cast.Order
import Mathlib.Tactic.Ring
import Reckoner.Expr.Basic

/-!
# The meaning of expressions

An interpretation gives the arithmetic operations their meaning over the rational numbers,
where a quotient by zero is zero, and symbols, truth values, powers, comparisons, calls and
lists any meaning at all. Two expressions agree when they have the same value under every
interpretation.
-/

namespace Reckoner

/-- The rational number that a fraction stands for. -/
def Fraction.value (q : Fraction) : ℚ := q.num / q.den

/-- What everything but arithmetic means. -/
structure Interpretation where
  /-- The value of a symbol. -/
  symbol : String → ℚ
  /-- The value of an approximate number. -/
  real : Float → ℚ
  /-- The value of a truth value. -/
  boolean : Bool → ℚ
  /-- The value of a power. -/
  power : ℚ → ℚ → ℚ
  /-- The value of a comparison. -/
  compare : Relation → ℚ → ℚ → ℚ
  /-- The value of a call. -/
  call : String → List ℚ → ℚ
  /-- The value of a list. -/
  list : List ℚ → ℚ

namespace Interpretation

variable (i : Interpretation)

/-- The value of an operation on two operands. -/
def operation : Operation → ℚ → ℚ → ℚ
  | .add, a, b => a + b
  | .subtract, a, b => a - b
  | .multiply, a, b => a * b
  | .divide, a, b => a / b
  | .power, a, b => i.power a b

mutual

/-- The value of an expression. -/
def value : Expr → ℚ
  | .exact q => q.value
  | .real x => i.real x
  | .symbol name => i.symbol name
  | .boolean b => i.boolean b
  | .neg a => -value a
  | .binary f a b => i.operation f (value a) (value b)
  | .compare f a b => i.compare f (value a) (value b)
  | .call f as => i.call f (values as)
  | .list as => i.list (values as)

/-- The values of several expressions. -/
def values : List Expr → List ℚ
  | [] => []
  | a :: as => value a :: values as

end

-- The equations are derived here, once for all proofs behind.
attribute [grind =] value values

theorem values_eq_map (as : List Expr) : i.values as = as.map i.value := by
  induction as with
  | nil => simp only [values, List.map_nil]
  | cons a as ih => simp only [values, List.map_cons, ih]

end Interpretation

/-- An integer as a fraction is worth itself. -/
@[simp] theorem Fraction.value_ofInt (n : Int) : (Fraction.ofInt n).value = n := by
  simp only [Fraction.value, Fraction.ofInt, Int.cast_one, div_one]

namespace Expr

/-- The same value under every interpretation. -/
def Agrees (a b : Expr) : Prop := ∀ i : Interpretation, i.value a = i.value b

/-- The same number of expressions, and the same values one by one. -/
def AllAgree (as bs : List Expr) : Prop := ∀ i : Interpretation, i.values as = i.values bs

namespace Agrees

variable {a a' b b' c : Expr}

theorem refl (a : Expr) : Agrees a a := fun _ => rfl

theorem trans (h : Agrees a b) (h' : Agrees b c) : Agrees a c := fun i => (h i).trans (h' i)

/-- Negations of expressions that agree do so as well. -/
theorem neg (h : Agrees a b) : Agrees (.neg a) (.neg b) := fun i => by
  simp only [Interpretation.value, h i]

/-- Operations on operands that agree do so as well. -/
theorem binary (f : Operation) (ha : Agrees a a') (hb : Agrees b b') :
    Agrees (.binary f a b) (.binary f a' b') := fun i => by
  simp only [Interpretation.value, ha i, hb i]

/-- Comparisons of sides that agree do so as well. -/
theorem compare (f : Relation) (ha : Agrees a a') (hb : Agrees b b') :
    Agrees (.compare f a b) (.compare f a' b') := fun i => by
  simp only [Interpretation.value, ha i, hb i]

end Agrees

/-- Calls with arguments that agree do so as well. -/
theorem AllAgree.call {as bs : List Expr} (f : String) (h : AllAgree as bs) :
    Agrees (.call f as) (.call f bs) := fun i => by
  simp only [Interpretation.value, h i]

/-- Lists of items that agree do so as well. -/
theorem AllAgree.list {as bs : List Expr} (h : AllAgree as bs) :
    Agrees (.list as) (.list bs) := fun i => by
  simp only [Interpretation.value, h i]

theorem AllAgree.nil : AllAgree [] [] := fun _ => rfl

/-- Expressions that agree may be put in front. -/
theorem AllAgree.cons {a b : Expr} {as bs : List Expr} (h : Agrees a b) (hs : AllAgree as bs) :
    AllAgree (a :: as) (b :: bs) := fun i => by
  simp only [Interpretation.values, h i, hs i]

end Expr

end Reckoner
