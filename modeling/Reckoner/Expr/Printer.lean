import Reckoner.Decimal.Text
import Reckoner.Expr.Basic

/-!
# Canonical text

The canonical text of an expression has no blanks and only the brackets that its
reading needs. Every expression has a level that says how tightly it binds; an
operand is put into brackets when it binds less tightly than its place demands. A
sum with a negative second operand is written as a difference.
-/

namespace Reckoner.Expr

/-- How tightly the text of an expression binds: comparisons 0, sums 1, products 2,
signs 3, powers 4, and 5 for what needs no brackets anywhere. -/
def level : Expr → Nat
  | compare .. => 0
  | binary f _ _ => f.level
  | neg _ => 3
  | exact q => if q.num < 0 then 3 else if q.isWhole then 5 else 2
  | real x => if x < 0.0 then 3 else 5
  | _ => 5

/-- The text starts with a minus sign. -/
def isNegative : Expr → Bool
  | neg _ => true
  | exact q => q.num < 0
  | real x => x < 0.0
  | _ => false

/-- Round brackets where they are needed. -/
def grouped (needed : Bool) (s : String) : String := if needed then "(" ++ s ++ ")" else s

/-- The text of a double: a fixed number of places at most, or the canonical form. -/
def realText (places : Option Nat) (x : Float) : String :=
  match places with
  | some n => Decimal.rounded x n
  | none => Decimal.canonical x

/-- The text of the negated fraction. Where that leaves the range, a double stands in. -/
def negatedText (places : Option Nat) (q : Fraction) : String :=
  match q.neg? with
  | some p => p.text
  | none => realText places (-q.toFloat)

mutual

/-- The canonical text, with at most the given number of places in approximate numbers. -/
def print (places : Option Nat) : Expr → String
  | exact q => q.text
  | real x => realText places x
  | symbol name => name
  | boolean true => "True"
  | boolean false => "False"
  | neg a => "-" ++ grouped (a.level < 3) (print places a)
  | binary .add a (neg b) =>
    grouped (a.level < 1) (print places a) ++ "-" ++
      grouped (b.level ≤ 1 || b.isNegative) (print places b)
  | binary .add a (exact q) =>
    if q.num < 0 then grouped (a.level < 1) (print places a) ++ "-" ++ negatedText places q
    else grouped (a.level < 1) (print places a) ++ "+" ++ q.text
  | binary .add a (real x) =>
    if x < 0.0 then grouped (a.level < 1) (print places a) ++ "-" ++ realText places (-x)
    else grouped (a.level < 1) (print places a) ++ "+" ++ realText places x
  | binary .add a b =>
    grouped (a.level < 1) (print places a) ++ "+" ++ grouped (b.level < 1) (print places b)
  | binary .multiply a b =>
    grouped (a.level < 2) (print places a) ++ "*" ++
      grouped (b.level < 2 || b.isNegative) (print places b)
  | binary .subtract a b =>
    grouped (a.level < 1) (print places a) ++ "-" ++
      grouped (b.level ≤ 1 || b.isNegative) (print places b)
  | binary .divide a b =>
    grouped (a.level < 2) (print places a) ++ "/" ++
      grouped (b.level ≤ 2 || b.isNegative) (print places b)
  | binary .power a b =>
    grouped (a.level ≤ 4 || a.isNegative) (print places a) ++ "^" ++
      grouped (b.level < 4) (print places b)
  | compare f a b =>
    grouped (a.level < 1) (print places a) ++ f.sign ++ grouped (b.level < 1) (print places b)
  | call name as => name ++ "(" ++ String.intercalate "," (printAll places as) ++ ")"
  | list as => "\x7b" ++ String.intercalate "," (printAll places as) ++ "\x7d"

/-- The texts of several expressions. -/
def printAll (places : Option Nat) : List Expr → List String
  | [] => []
  | a :: as => print places a :: printAll places as

end

theorem printAll_eq_map (places : Option Nat) (as : List Expr) :
    printAll places as = as.map (print places) := by
  induction as with
  | nil => simp only [printAll, List.map_nil]
  | cons a as ih => simp only [printAll, List.map_cons, ih]

end Reckoner.Expr
