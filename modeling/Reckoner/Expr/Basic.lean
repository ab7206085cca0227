import Reckoner.Fraction

/-!
# Expressions

An expression is a tree over exact and approximate numbers, symbols and truth
values. Lists stand for vectors, and lists of lists for matrices. Each function on
expressions comes with its twin on lists of them. The height of a tree is defined by
recursion on it; `depth` walks the tree level by level over a worklist instead.
-/

namespace Reckoner

/-- The arithmetic operations on two operands. -/
inductive Operation where
  | add
  | subtract
  | multiply
  | divide
  | power
  deriving DecidableEq, Repr

/-- The relations between two operands. -/
inductive Relation where
  | equal
  | notEqual
  | less
  | lessEqual
  | greater
  | greaterEqual
  deriving DecidableEq, Repr

namespace Operation

/-- How tightly an operation binds; the higher the tighter. Negation has level 3. -/
def level : Operation → Nat
  | add | subtract => 1
  | multiply | divide => 2
  | power => 4

/-- The sign between the operands. -/
def sign : Operation → String
  | add => "+"
  | subtract => "-"
  | multiply => "*"
  | divide => "/"
  | power => "^"

/-- The operation on doubles. -/
def apply : Operation → Float → Float → Float
  | add, a, b => a + b
  | subtract, a, b => a - b
  | multiply, a, b => a * b
  | divide, a, b => a / b
  | power, a, b => Float.pow a b

end Operation

namespace Relation

/-- The sign between the operands. -/
def sign : Relation → String
  | equal => "=="
  | notEqual => "!="
  | less => "<"
  | lessEqual => "<="
  | greater => ">"
  | greaterEqual => ">="

/-- The relation on doubles; only `notEqual` holds of what is not a number. -/
def holds : Relation → Float → Float → Bool
  | equal, a, b => a == b
  | notEqual, a, b => a != b
  | less, a, b => a < b
  | lessEqual, a, b => a ≤ b
  | greater, a, b => b < a
  | greaterEqual, a, b => b ≤ a

end Relation

/-- A mathematical expression. -/
inductive Expr where
  | exact (value : Fraction)
  | real (value : Float)
  | symbol (name : String)
  | boolean (value : Bool)
  | neg (operand : Expr)
  | binary (operation : Operation) (left right : Expr)
  | compare (relation : Relation) (left right : Expr)
  | call (name : String) (arguments : List Expr)
  | list (items : List Expr)
  deriving Inhabited

namespace Expr

/-- A whole number as an expression. -/
def ofInt (n : Int) : Expr := exact (Fraction.ofInt n)

/-- The fraction that an exact number stands for. -/
def exactValue? : Expr → Option Fraction
  | exact value => some value
  | _ => none

/-- An exact or an approximate number. -/
def isNumber : Expr → Bool
  | exact _ | real _ => true
  | _ => false

/-! ## Equality -/

mutual

/-- The same tree, with doubles compared as numbers. -/
def same : Expr → Expr → Bool
  | exact a, exact b => a == b
  | real a, real b => a == b
  | symbol a, symbol b => a == b
  | boolean a, boolean b => a == b
  | neg a, neg b => same a b
  | binary f a b, binary g c d => f == g && same a c && same b d
  | compare f a b, compare g c d => f == g && same a c && same b d
  | call f as, call g bs => f == g && sameAll as bs
  | list as, list bs => sameAll as bs
  | _, _ => false

/-- The same trees in the same order. -/
def sameAll : List Expr → List Expr → Bool
  | [], [] => true
  | a :: as, b :: bs => same a b && sameAll as bs
  | _, _ => false

end

/-! ## Height -/

mutual

/-- The height of the tree; a leaf has height one. -/
def height : Expr → Nat
  | exact _ | real _ | symbol _ | boolean _ => 1
  | neg a => height a + 1
  | binary _ a b | compare _ a b => max (height a) (height b) + 1
  | call _ as | list as => tallest as + 1

/-- The height of the tallest tree; zero without any. -/
def tallest : List Expr → Nat
  | [] => 0
  | a :: as => max (height a) (tallest as)

end

mutual

/-- The number of nodes of the tree. -/
def size : Expr → Nat
  | exact _ | real _ | symbol _ | boolean _ => 1
  | neg a => size a + 1
  | binary _ a b | compare _ a b => size a + size b + 1
  | call _ as | list as => totalSize as + 1

/-- The number of nodes of all trees. -/
def totalSize : List Expr → Nat
  | [] => 0
  | a :: as => size a + totalSize as

end

/-- The trees directly below the root. -/
def children : Expr → List Expr
  | exact _ | real _ | symbol _ | boolean _ => []
  | neg a => [a]
  | binary _ a b | compare _ a b => [a, b]
  | call _ as | list as => as

/-- The root is one node more than the trees below it. -/
theorem size_eq_children (e : Expr) : size e = totalSize (children e) + 1 := by
  cases e <;> simp only [size, children, totalSize] <;> omega

theorem totalSize_append (as bs : List Expr) :
    totalSize (as ++ bs) = totalSize as + totalSize bs := by
  induction as with
  | nil => simp only [List.nil_append, totalSize, Nat.zero_add]
  | cons a as ih => simp only [List.cons_append, totalSize, ih, Nat.add_assoc]

/-- Visit the trees that wait, each with the depth of its root, and keep the greatest
depth. The trees below a visited root wait in front of the others. -/
def deepest (waiting : List (Expr × Nat)) (best : Nat) : Nat :=
  match waiting with
  | [] => best
  | (e, depth) :: rest =>
    deepest ((children e).map (fun child => (child, depth + 1)) ++ rest) (max best depth)
termination_by totalSize (waiting.map (·.1))
decreasing_by
  simp only [List.map_append, List.map_map, Function.comp_def, List.map_id', totalSize_append,
    List.map_cons, totalSize, size_eq_children e]
  omega

/-- The height of the tree, by a walk over a worklist. -/
def depth (e : Expr) : Nat := deepest [(e, 1)] 0

/-! ## Symbols -/

mutual

/-- The symbols in order of appearance, repetitions included. -/
def symbolList : Expr → List String
  | symbol name => [name]
  | exact _ | real _ | boolean _ => []
  | neg a => symbolList a
  | binary _ a b | compare _ a b => symbolList a ++ symbolList b
  | call _ as | list as => symbolListAll as

/-- The symbols of all trees. -/
def symbolListAll : List Expr → List String
  | [] => []
  | a :: as => symbolList a ++ symbolListAll as

end

/-- Put a name at its place in a sorted list, unless it stands there. -/
def insertName (name : String) : List String → List String
  | [] => [name]
  | other :: rest =>
    if name < other then name :: other :: rest
    else if name = other then other :: rest
    else other :: insertName name rest

/-- Insertion adds the name and loses none. -/
theorem mem_insertName {n name : String} {names : List String} :
    n ∈ insertName name names ↔ n = name ∨ n ∈ names := by
  induction names with
  | nil => simp only [insertName, List.mem_singleton, List.not_mem_nil, or_false]
  | cons other rest ih =>
    simp only [insertName]
    split
    · simp only [List.mem_cons]
    · split
      · rename_i h
        simp only [List.mem_cons, h, or_self_left]
      · simp only [List.mem_cons, ih]
        exact or_left_comm

/-- The symbols of the tree, sorted, each once. -/
def symbols (e : Expr) : List String :=
  (symbolList e).foldl (fun names name => insertName name names) []

/-- Inserting names one after another adds just these. -/
private theorem mem_foldl_insertName {n : String} (names start : List String) :
    n ∈ names.foldl (fun names name => insertName name names) start ↔ n ∈ names ∨ n ∈ start := by
  induction names generalizing start with
  | nil => simp only [List.foldl_nil, List.not_mem_nil, false_or]
  | cons name names ih =>
    simp only [List.foldl_cons, ih, mem_insertName, List.mem_cons]
    constructor
    · rintro (h | h | h)
      · exact .inl (.inr h)
      · exact .inl (.inl h)
      · exact .inr h
    · rintro ((h | h) | h)
      · exact .inr (.inl h)
      · exact .inl h
      · exact .inr (.inr h)

/-- Sorting neither loses a symbol nor adds one. -/
theorem mem_symbols {n : String} {e : Expr} : n ∈ symbols e ↔ n ∈ symbolList e := by
  simp only [symbols, mem_foldl_insertName, List.not_mem_nil, or_false]

/-! ## Substitution -/

mutual

/-- Replace every occurrence of a symbol by a tree. The name of a call is no symbol. -/
def substitute (name : String) (value : Expr) : Expr → Expr
  | symbol other => if other = name then value else symbol other
  | exact q => exact q
  | real x => real x
  | boolean b => boolean b
  | neg a => neg (substitute name value a)
  | binary f a b => binary f (substitute name value a) (substitute name value b)
  | compare f a b => compare f (substitute name value a) (substitute name value b)
  | call f as => call f (substituteAll name value as)
  | list as => list (substituteAll name value as)

/-- Replace a symbol in all trees. -/
def substituteAll (name : String) (value : Expr) : List Expr → List Expr
  | [] => []
  | a :: as => substitute name value a :: substituteAll name value as

end

end Expr

end Reckoner
