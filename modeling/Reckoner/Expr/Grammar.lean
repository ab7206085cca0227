import Reckoner.Expr.Token

/-!
# The grammar of expressions

From loose to tight: comparisons, sums, products, signs, powers, applications. A
name or a round bracket that follows an operand multiplies it. The expressions in
brackets and the operands of signs and powers sit one level deeper than what
surrounds them. The rules of one level are built from the rules of the next deeper
one, and below the deepest level every rule fails, so the recursion is on the number
of levels left. Chains of operands of the same kind read on as long as tokens are used up.
-/

namespace Reckoner.Grammar

/-- Tokens that wait to be read, and what stands behind the last of them. -/
structure Input where
  /-- The tokens in order. -/
  tokens : List Token
  /-- The error behind the tokens, unless the text ends there. -/
  fault : Option ParseError

namespace Input

/-- Wait before some tokens; an error that no token precedes is raised. -/
def before (tokens : List Token) (fault : Option ParseError) : Except ParseError Input :=
  match tokens, fault with
  | [], some e => .error e
  | tokens, fault => .ok ⟨tokens, fault⟩

/-- Go past the next token. -/
def advance (i : Input) : Except ParseError Input := before i.tokens.tail i.fault

/-- The next token, or nothing at the end of the text. -/
def next (i : Input) : Option Token := i.tokens.head?

/-- The next token is the given sign. -/
def isAt (i : Input) (t : Token) : Bool := i.next.any t.isSign

/-- The whole text as input. -/
def ofText (s : String) : Except ParseError Input :=
  let (tokens, fault) := Token.scanAll s.toList
  before tokens fault

end Input

/-- A rule reads some of the input and leaves the rest. -/
abbrev Rule (α : Type) := Input → Except ParseError (α × Input)

/-- The two rules that lead one level deeper. -/
structure Level where
  /-- A whole expression, as it stands in brackets. -/
  expression : Rule Expr
  /-- An operand with its signs. -/
  operand : Rule Expr

/-- Repeat a step that extends what was read so far, until it declines. A step that
uses up no token is the last one. -/
def chain {α : Type} (step : α → Input → Except ParseError (Option (α × Input)))
    (sofar : α) (i : Input) : Except ParseError (α × Input) :=
  match step sofar i with
  | .error e => .error e
  | .ok none => .ok (sofar, i)
  | .ok (some (a, j)) =>
    if j.tokens.length < i.tokens.length then chain step a j else .ok (a, j)
termination_by i.tokens.length

/-- Go past the given sign, which has to come next. -/
def expect (t : Token) (i : Input) : Except ParseError Input :=
  if i.isAt t then i.advance else .error (.missing t i.next)

/-- One more argument behind a comma. -/
def moreArguments (deeper : Level) (sofar : List Expr) (i : Input) :
    Except ParseError (Option (List Expr × Input)) :=
  if i.isAt .comma then do
    let (e, i) ← deeper.expression (← i.advance)
    return some (sofar ++ [e], i)
  else return none

/-- Expressions between commas, up to the closing bracket, which is left; there may be none. -/
def arguments (deeper : Level) (bracket : Bracket) : Rule (List Expr) := fun i =>
  if i.isAt (.closing bracket) then return ([], i)
  else do
    let (e, i) ← deeper.expression i
    chain (moreArguments deeper) [e] i

/-- Arguments in brackets, of which the opening one comes next. -/
def enclosed (deeper : Level) (bracket : Bracket) : Rule (List Expr) := fun i => do
  let (es, i) ← arguments deeper bracket (← i.advance)
  return (es, ← expect (.closing bracket) i)

/-- Numbers, names, truth values, and what stands in round or curly brackets. -/
def primary (deeper : Level) : Rule Expr := fun i =>
  match i.next with
  | some (.integer n) => do return (.ofInt n, ← i.advance)
  | some (.decimal x) => do return (.real x, ← i.advance)
  | some (.boolean b) => do return (.boolean b, ← i.advance)
  | some (.name s) => do return (.symbol s, ← i.advance)
  | some (.opening .round) => do
    let (e, i) ← deeper.expression (← i.advance)
    return (e, ← expect (.closing .round) i)
  | some (.opening .curly) => do
    let (es, i) ← enclosed deeper .curly i
    return (.list es, i)
  | found => .error (.unexpected found)

/-- A symbol with arguments in round or square brackets behind it is a call. -/
def application (deeper : Level) : Rule Expr := fun i => do
  let (e, i) ← primary deeper i
  match e, i.next with
  | .symbol name, some (.opening .round) => do
    let (es, i) ← enclosed deeper .round i
    return (.call name es, i)
  | .symbol name, some (.opening .square) => do
    let (es, i) ← enclosed deeper .square i
    return (.call name es, i)
  | e, _ => return (e, i)

/-- Powers group to the right, and the exponent may have signs. -/
def power (deeper : Level) : Rule Expr := fun i => do
  let (base, i) ← application deeper i
  if i.isAt (.operation .power) then do
    let (exponent, i) ← deeper.operand (← i.advance)
    return (.binary .power base exponent, i)
  else return (base, i)

/-- Signs in front of a power; a plus leaves no trace. -/
def unary (deeper : Level) : Rule Expr := fun i =>
  match i.next with
  | some (.operation .subtract) => do
    let (e, i) ← deeper.operand (← i.advance)
    return (.neg e, i)
  | some (.operation .add) => do deeper.operand (← i.advance)
  | _ => power deeper i

/-- One more factor, behind a sign or directly behind the last one. -/
def moreFactors (deeper : Level) (sofar : Expr) (i : Input) :
    Except ParseError (Option (Expr × Input)) :=
  match i.next with
  | some (.operation .multiply) => do
    let (e, i) ← unary deeper (← i.advance)
    return some (.binary .multiply sofar e, i)
  | some (.operation .divide) => do
    let (e, i) ← unary deeper (← i.advance)
    return some (.binary .divide sofar e, i)
  | some (.name _) | some (.opening .round) => do
    let (e, i) ← power deeper i
    return some (.binary .multiply sofar e, i)
  | _ => return none

/-- Products and quotients group to the left. -/
def product (deeper : Level) : Rule Expr := fun i => do
  let (e, i) ← unary deeper i
  chain (moreFactors deeper) e i

/-- One more summand behind a sign. -/
def moreSummands (deeper : Level) (sofar : Expr) (i : Input) :
    Except ParseError (Option (Expr × Input)) :=
  match i.next with
  | some (.operation .add) => do
    let (e, i) ← product deeper (← i.advance)
    return some (.binary .add sofar e, i)
  | some (.operation .subtract) => do
    let (e, i) ← product deeper (← i.advance)
    return some (.binary .subtract sofar e, i)
  | _ => return none

/-- Sums and differences group to the left. -/
def sum (deeper : Level) : Rule Expr := fun i => do
  let (e, i) ← product deeper i
  chain (moreSummands deeper) e i

/-- One more side of a comparison behind its sign. -/
def moreSides (deeper : Level) (sofar : Expr) (i : Input) :
    Except ParseError (Option (Expr × Input)) :=
  match i.next with
  | some (.relation f) => do
    let (e, i) ← sum deeper (← i.advance)
    return some (.compare f sofar e, i)
  | _ => return none

/-- Comparisons group to the left. -/
def comparison (deeper : Level) : Rule Expr := fun i => do
  let (e, i) ← sum deeper i
  chain (moreSides deeper) e i

/-- The rules with a number of levels left. -/
def level : Nat → Level
  | 0 => ⟨fun _ => .error .nestedTooDeeply, fun _ => .error .nestedTooDeeply⟩
  | n + 1 =>
    let deeper := level n
    ⟨comparison deeper, unary deeper⟩

/-- The number of levels of brackets, signs and powers. -/
def maxLevels : Nat := 64

/-- The height of the tallest tree. -/
def maxHeight : Nat := 128

/-- Read a whole text as one expression. -/
def parse (s : String) : Except ParseError Expr := do
  let (e, i) ← (level maxLevels).expression (← Input.ofText s)
  match i.next with
  | some t => .error (.trailing t)
  | none => if maxHeight < e.depth then .error .nestedTooDeeply else return e

end Reckoner.Grammar
