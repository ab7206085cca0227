import Reckoner.Expr.Printer

/-!
# Display form

The display form of an expression is a formula for a typesetter: fractions and
exponents stand in braces, matrices in an environment of their own, and known names
have commands. Operands are grouped by the same levels as in the canonical text.
-/

namespace Reckoner.Expr

/-- The argument of a command. -/
def braced (s : String) : String := "\x7b" ++ s ++ "\x7d"

/-- Growing round brackets. -/
def fenced (s : String) : String := "\\left(" ++ s ++ "\\right)"

/-- Growing round brackets where they are needed. -/
def fencedIf (needed : Bool) (s : String) : String := if needed then fenced s else s

/-- The functions that have a command of their own. -/
def functionCommands : List String :=
  ["sin", "cos", "tan", "cot", "sec", "csc", "sinh", "cosh", "tanh", "coth", "arcsin", "arccos",
   "arctan", "exp", "log", "ln", "max", "min", "det"]

/-- Constants have signs; other names are upright unless they are one letter. -/
def typesetSymbol (name : String) : String :=
  if name = "Pi" then "\\pi"
  else if name = "E" then "e"
  else if name = "I" then "i"
  else if name = "Infinity" then "\\infty"
  else if name = "Degree" then "^" ++ braced "\\circ"
  else if name = "GoldenRatio" then "\\phi"
  else if name = "EulerGamma" then "\\gamma"
  else if name.length = 1 then name
  else "\\mathrm" ++ braced name

/-- A fraction with the sign before it. -/
def typesetFraction (q : Fraction) : String :=
  if q.isWhole then q.text
  else
    (if q.num < 0 then "-" else "") ++ "\\frac" ++ braced (toString q.num.natAbs) ++
      braced (toString q.den)

/-- The sign of a relation between formulas. -/
def typesetRelation : Relation → String
  | .equal => "="
  | .notEqual => "\\neq "
  | .lessEqual => "\\leq "
  | .greaterEqual => "\\geq "
  | .less => "<"
  | .greater => ">"

/-- A call of a function on formulas; a root has a sign, and known functions a command. -/
def typesetCall (name : String) (arguments : List String) : String :=
  let lower := name.toLower
  match lower, arguments with
  | "sqrt", [a] => "\\sqrt" ++ braced a
  | _, _ =>
    let command :=
      if functionCommands.contains lower then "\\" ++ lower else "\\operatorname" ++ braced name
    command ++ fenced (String.intercalate "," arguments)

/-- A list of lists, which is shown as a matrix. -/
def isTable (items : List Expr) : Bool :=
  !items.isEmpty && items.all fun item => match item with
    | list _ => true
    | _ => false

mutual

/-- The formula of an expression. -/
def typeset : Expr → String
  | exact q => typesetFraction q
  | real x => Decimal.canonical x
  | symbol name => typesetSymbol name
  | boolean b => "\\text" ++ braced (if b then "True" else "False")
  | neg a => "-" ++ fencedIf (a.level < 3) (typeset a)
  | binary .divide a b => "\\frac" ++ braced (typeset a) ++ braced (typeset b)
  | binary .power a b => braced (fencedIf (a.level < 5) (typeset a)) ++ "^" ++ braced (typeset b)
  | binary .multiply a b =>
    fencedIf (a.level < 2) (typeset a) ++ " \\cdot " ++ fencedIf (b.level < 3) (typeset b)
  | binary .add a b => typeset a ++ "+" ++ fencedIf (b.level < 2) (typeset b)
  | binary .subtract a b => typeset a ++ "-" ++ fencedIf (b.level < 2) (typeset b)
  | compare f a b => typeset a ++ typesetRelation f ++ typeset b
  | call name as => typesetCall name (typesetAll as)
  | list as =>
    if isTable as then
      "\\begin" ++ braced "pmatrix" ++ String.intercalate " \\\\ " (typesetRows as) ++ "\\end" ++
        braced "pmatrix"
    else "\\\x7b" ++ String.intercalate "," (typesetAll as) ++ "\\\x7d"

/-- The formulas of several expressions. -/
def typesetAll : List Expr → List String
  | [] => []
  | a :: as => typeset a :: typesetAll as

/-- The rows of a matrix, with marks between the columns. -/
def typesetRows : List Expr → List String
  | [] => []
  | list cells :: rows => String.intercalate " & " (typesetAll cells) :: typesetRows rows
  | a :: rows => typeset a :: typesetRows rows

end

end Reckoner.Expr
