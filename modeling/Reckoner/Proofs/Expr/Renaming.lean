import Reckoner.Proofs.Expr.Depth

/-!
# Names in a tree

Symbols and the names of calls can be exchanged for others without touching the shape of a tree.
So the limit on its height does not depend on names either.
-/

namespace Reckoner.Expr

mutual

/-- Exchange the symbols and the names of calls. -/
def rename (f : String → String) : Expr → Expr
  | exact q => exact q
  | real x => real x
  | symbol name => symbol (f name)
  | boolean b => boolean b
  | neg a => neg (rename f a)
  | binary g a b => binary g (rename f a) (rename f b)
  | compare g a b => compare g (rename f a) (rename f b)
  | call name as => call (f name) (renameAll f as)
  | list as => list (renameAll f as)

/-- Exchange the names in all trees. -/
def renameAll (f : String → String) : List Expr → List Expr
  | [] => []
  | a :: as => rename f a :: renameAll f as

end

variable {f : String → String} {e e' : Expr} {es es' : List Expr}

theorem renameAll_append (f : String → String) (as bs : List Expr) :
    renameAll f (as ++ bs) = renameAll f as ++ renameAll f bs := by
  induction as with
  | nil => rfl
  | cons a as ih => simp only [List.cons_append, renameAll, ih]

/-- Trees that differ in names only may be put behind others. -/
theorem renameAll_concat (h : renameAll f es' = renameAll f es) (he : rename f e' = rename f e) :
    renameAll f (es' ++ [e']) = renameAll f (es ++ [e]) := by
  rw [renameAll_append, renameAll_append, h]
  simp only [renameAll, he]

/-- Symbols whose names become the same become the same. -/
theorem rename_symbol {x y : String} (h : f x = f y) :
    rename f (symbol y) = rename f (symbol x) := by
  rw [rename, rename, h]

/-- Operations on operands that differ in names only do so as well. -/
theorem rename_binary {a a' b b' : Expr} (g : Operation) (ha : rename f a' = rename f a)
    (hb : rename f b' = rename f b) : rename f (binary g a' b') = rename f (binary g a b) := by
  rw [rename, rename, ha, hb]

/-- Comparisons of sides that differ in names only do so as well. -/
theorem rename_compare {a a' b b' : Expr} (g : Relation) (ha : rename f a' = rename f a)
    (hb : rename f b' = rename f b) : rename f (compare g a' b') = rename f (compare g a b) := by
  rw [rename, rename, ha, hb]

/-- Only a symbol becomes a symbol. -/
theorem exists_symbol_of_rename {x : String} (h : rename f e = rename f (symbol x)) :
    ∃ y, e = symbol y ∧ f y = f x := by
  cases e with
  | symbol y =>
    rw [rename, rename] at h
    exact ⟨y, rfl, Expr.symbol.inj h⟩
  | _ => cases h

/-- Of two trees that differ in names only both are symbols or none. -/
theorem isSome_symbolName?_of_rename (h : rename f e' = rename f e) :
    e'.symbolName?.isSome = e.symbolName?.isSome := by
  cases e <;> cases e' <;> first | rfl | cases h

mutual

/-- Without other names the tree stays as it is. -/
theorem rename_id : (e : Expr) → rename id e = e
  | exact _ | real _ | symbol _ | boolean _ => rfl
  | neg a => congrArg neg (rename_id a)
  | binary g a b => by rw [rename, rename_id a, rename_id b]
  | compare g a b => by rw [rename, rename_id a, rename_id b]
  | call name as => congrArg (call name) (renameAll_id as)
  | list as => congrArg list (renameAll_id as)

/-- Without other names all trees stay as they are. -/
theorem renameAll_id : (es : List Expr) → renameAll id es = es
  | [] => rfl
  | a :: as => by rw [renameAll, rename_id a, renameAll_id as]

end

mutual

/-- Names do not count for the height. -/
theorem height_rename : (e : Expr) → (rename f e).height = e.height
  | exact _ | real _ | symbol _ | boolean _ => rfl
  | neg a => congrArg (· + 1) (height_rename a)
  | binary g a b | compare g a b => by
    simp only [rename, height, height_rename a, height_rename b]
  | call name as | list as => congrArg (· + 1) (tallest_renameAll as)

/-- Names do not count for the heights of several trees. -/
theorem tallest_renameAll : (es : List Expr) → tallest (renameAll f es) = tallest es
  | [] => rfl
  | a :: as => by simp only [renameAll, tallest, height_rename a, tallest_renameAll as]

end

/-- Names do not count for the depth. -/
theorem depth_eq_of_rename (h : rename f e = rename f e') : e.depth = e'.depth := by
  rw [depth_eq_height, depth_eq_height, ← height_rename (f := f) e, h, height_rename]

end Reckoner.Expr
