/-!
# Known names

The names that an expression may use: constants, functions and truth values. A user
may call a constant by another name than the engine does. Constants and functions are
found without regard to case, truth values exactly.
-/

namespace Reckoner.Vocabulary

/-- A constant, as the user calls it. -/
structure Constant where
  /-- The name that the user writes. -/
  name : String
  /-- The name that the engine knows, if it is another one. -/
  native : Option String
  deriving DecidableEq, Repr

/-- The name that the engine knows. -/
def Constant.engineName (c : Constant) : String := c.native.getD c.name

/-- The constants; the first of several that fit a name counts. -/
def constants : List Constant :=
  [⟨"pi", some "Pi"⟩, ⟨"e", some "E"⟩, ⟨"i", some "I"⟩, ⟨"phi", some "GoldenRatio"⟩,
   ⟨"deg", some "Degree"⟩, ⟨"inf", some "Infinity"⟩, ⟨"Pi", none⟩, ⟨"E", none⟩, ⟨"I", none⟩,
   ⟨"GoldenRatio", none⟩, ⟨"Degree", none⟩, ⟨"Infinity", none⟩, ⟨"EulerGamma", none⟩,
   ⟨"Catalan", none⟩]

/-- The functions that may be called. -/
def functions : List String :=
  ["sin", "cos", "tan", "cot", "sec", "csc",
   "arcsin", "arccos", "arctan", "arccot", "arcsec", "arccsc", "asin", "acos", "atan",
   "sinh", "cosh", "tanh", "coth", "sech", "csch",
   "arcsinh", "arccosh", "arctanh", "arccoth", "asinh", "acosh", "atanh",
   "D", "Integrate", "Limit", "Sum", "Product",
   "Det", "Inverse", "Transpose", "Dot", "Cross", "Eigenvalues",
   "Sqrt", "Exp", "Log", "Ln", "Log10", "Abs", "Floor", "Ceiling", "Round", "Sign",
   "Gamma", "Factorial", "Max", "Min",
   "Solve", "Simplify", "Expand", "Factor", "N"]

/-- The truth values. -/
def keywords : List String := ["True", "False"]

/-- Equal but for the case of ASCII letters. -/
def sameName (a b : String) : Bool := a.toLower == b.toLower

/-- The constant that a name stands for. -/
def constant? (name : String) : Option Constant := constants.find? fun c => sameName c.name name

/-- The name stands for a constant. -/
def isConstant (name : String) : Bool := (constant? name).isSome

/-- The name is a truth value. -/
def isKeyword (name : String) : Bool := keywords.contains name

/-- The function may be called. -/
def isFunction (name : String) : Bool := functions.any fun f => sameName f name

/-- The constants with two names, and both names. -/
def nativeNames : List (String × String) :=
  constants.filterMap fun c => c.native.map fun native => (c.name, native)

end Reckoner.Vocabulary
