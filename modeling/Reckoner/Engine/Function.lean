import Reckoner.Decimal.Text

/-!
# Numeric functions

The functions and constants with a numeric value. Function names are compared
without regard to case, constant names exactly. A function can refuse its arguments:
for their number, or because it is undefined there.
-/

namespace Reckoner

/-- Why a function gives no value. -/
inductive FunctionError where
  /-- No function has this name. -/
  | unknown
  /-- The number of arguments is not the expected one. -/
  | arity (expected : String) (actual : Nat)
  /-- The function is undefined at its argument. -/
  | undefinedAt (name : String) (x : Float)
  /-- The function is undefined for its arguments taken together. -/
  | undefinedFor (name : String) (xs : List Float)
  deriving Repr

/-- The arguments as they appear in a message. -/
def listedArguments (xs : List Float) : String :=
  "[" ++ String.intercalate ", " (xs.map Decimal.listed) ++ "]"

/-- The wording for arguments outside the domain. -/
def FunctionError.message : FunctionError → String
  | unknown => "unknown function"
  | arity expected actual => expected ++ " expected, " ++ toString actual ++ " given"
  | undefinedAt name x => name ++ " is undefined at " ++ Decimal.plain x
  | undefinedFor name xs => name ++ " is undefined for " ++ listedArguments xs

namespace Numeric

/-- Half the circumference of the unit circle. -/
def pi : Float := 3.141592653589793

/-- The constants with a numeric value. -/
def constants : List (String × Float) :=
  [("Pi", pi),
   ("E", 2.718281828459045),
   ("Degree", pi / 180.0),
   ("GoldenRatio", 1.618033988749895),
   ("EulerGamma", 0.5772156649015329),
   ("Catalan", 0.915965594177219)]

/-- The value of a constant. -/
def constant? (name : String) : Option Float := constants.lookup name

/-- The infinity above all numbers. -/
def infinity : Float := 1.0 / 0.0

/-- Minus one, zero or one. -/
def signum (x : Float) : Float :=
  if x == 0.0 then 0.0 else if x < 0.0 then -1.0 else if 0.0 < x then 1.0 else x

/-- The coefficients of the Lanczos series behind the first. -/
def lanczosCoefficients : List Float :=
  [676.5203681218851, -1259.1392167224028, 771.3234287776531, -176.6150291621406,
   12.507343278686905, -0.13857109526572012, 9.984369578019572e-6, 1.5056327351493116e-7]

/-- The gamma function from one half on, by the Lanczos series. -/
def lanczos (x : Float) : Float :=
  let x := x - 1.0
  let t := x + 7.5
  let series := (lanczosCoefficients.zipIdx 1).foldl
    (fun sum term => sum + term.1 / (x + Float.ofNat term.2)) 0.9999999999998099
  Float.sqrt (2.0 * pi) * Float.pow t (x + 0.5) * Float.exp (-t) * series

/-- The gamma function, by reflection below one half. -/
def gamma (x : Float) : Float :=
  if x < 0.5 then pi / (Float.sin (pi * x) * lanczos (1.0 - x)) else lanczos x

/-- The larger number; what is not a number is passed over. -/
def larger (x y : Float) : Float := if x < y then y else x

/-- The smaller number; what is not a number is passed over. -/
def smaller (x y : Float) : Float := if y < x then y else x

/-- A function of one argument and where it is defined. -/
structure Unary where
  /-- The function is defined at the argument. -/
  admits : Float → Bool
  /-- The value where it is defined. -/
  value : Float → Float

/-- A function that is defined everywhere. -/
def total (f : Float → Float) : Option Unary := some ⟨fun _ => true, f⟩

/-- A function that is defined where a condition holds. -/
def guarded (admits : Float → Bool) (f : Float → Float) : Option Unary := some ⟨admits, f⟩

/-- Between minus one and one. -/
def inUnitInterval (x : Float) : Bool := -1.0 ≤ x && x ≤ 1.0

/-- The functions of one argument, by their names in small letters. -/
def unary? : String → Option Unary
  | "sin" => total Float.sin
  | "cos" => total Float.cos
  | "tan" => total Float.tan
  | "cot" => total fun x => 1.0 / Float.tan x
  | "sec" => total fun x => 1.0 / Float.cos x
  | "csc" => total fun x => 1.0 / Float.sin x
  | "sinh" => total Float.sinh
  | "cosh" => total Float.cosh
  | "tanh" => total Float.tanh
  | "coth" => total fun x => 1.0 / Float.tanh x
  | "sech" => total fun x => 1.0 / Float.cosh x
  | "csch" => total fun x => 1.0 / Float.sinh x
  | "arcsin" => guarded inUnitInterval Float.asin
  | "asin" => guarded inUnitInterval Float.asin
  | "arccos" => guarded inUnitInterval Float.acos
  | "acos" => guarded inUnitInterval Float.acos
  | "arctan" => total Float.atan
  | "atan" => total Float.atan
  | "arccot" => total fun x => Float.atan (1.0 / x)
  | "acot" => total fun x => Float.atan (1.0 / x)
  | "arcsinh" => total Float.asinh
  | "asinh" => total Float.asinh
  | "arccosh" => guarded (1.0 ≤ ·) Float.acosh
  | "acosh" => guarded (1.0 ≤ ·) Float.acosh
  | "arctanh" => guarded (·.abs < 1.0) Float.atanh
  | "atanh" => guarded (·.abs < 1.0) Float.atanh
  | "sqrt" => guarded (0.0 ≤ ·) Float.sqrt
  | "exp" => total Float.exp
  | "ln" => guarded (0.0 < ·) Float.log
  | "log10" => guarded (0.0 < ·) Float.log10
  | "abs" => total Float.abs
  | "sign" => total signum
  | "floor" => total floor
  | "ceiling" => total ceiling
  | "ceil" => total ceiling
  | "round" => total roundHalfAway
  | "gamma" => guarded (fun x => !(x ≤ 0.0 && isWhole x)) gamma
  | "factorial" => guarded (fun x => 0.0 ≤ x && isWhole x) fun x => gamma (x + 1.0)
  | _ => none

/-- The natural logarithm, or the logarithm to a positive base other than one. -/
def logarithm (name : String) : List Float → Except FunctionError Float
  | [x] =>
    if 0.0 < x then .ok (Float.log x) else .error (.undefinedFor name [x])
  | [base, x] =>
    if 0.0 < base && base != 1.0 && 0.0 < x then .ok (Float.log x / Float.log base)
    else .error (.undefinedFor name [base, x])
  | xs => .error (.arity "1 or 2" xs.length)

/-- The best of at least one argument. -/
def extreme (better : Float → Float → Float) (start : Float) :
    List Float → Except FunctionError Float
  | [] => .error (.arity "at least 1" 0)
  | xs => .ok (xs.foldl better start)

/-- The value of a function. Messages name the function as it was called. -/
def call (name : String) (xs : List Float) : Except FunctionError Float :=
  match name.toLower with
  | "log" => logarithm name xs
  | "max" => extreme larger (-infinity) xs
  | "min" => extreme smaller infinity xs
  | lower =>
    match unary? lower, xs with
    | none, _ => .error .unknown
    | some f, [x] => if f.admits x then .ok (f.value x) else .error (.undefinedAt name x)
    | some _, xs => .error (.arity "1" xs.length)

/-- A function of this name exists. -/
def isKnown (name : String) : Bool :=
  match call name [1.0] with
  | .error .unknown => false
  | _ => true

end Numeric

end Reckoner
