import Reckoner.Proofs.Engine.Preservation

/-!
# One pass is enough

A tree is reduced if the fold of every node within it gives back that node. What a fold gives for
reduced operands is reduced: a number, an operand or a part of one, or the node itself, and then
the fold is the one that gave it. Simplification therefore gives a reduced tree, and a reduced
tree is what it simplifies to, whatever warnings were given before.
-/

namespace Reckoner

namespace Expr

open Run

/-! ## Reduced trees -/

/-- Folding any node of the tree gives back the node. -/
inductive Reduced : Expr → Prop where
  | exact (q : Fraction) : Reduced (.exact q)
  | real (x : Float) : Reduced (.real x)
  | symbol (name : String) : Reduced (.symbol name)
  | boolean (b : Bool) : Reduced (.boolean b)
  | neg {a : Expr} : Reduced a → negate a = .neg a → Reduced (.neg a)
  | binary {f : Operation} {a b : Expr} : Reduced a → Reduced b →
    foldBinary f a b = .ok (.binary f a b) → Reduced (.binary f a b)
  | compare {f : Relation} {a b : Expr} : Reduced a → Reduced b →
    foldCompare f a b = .compare f a b → Reduced (.compare f a b)
  | call {name : String} {as : List Expr} : (∀ a ∈ as, Reduced a) →
    Gives (foldCall name as) (.call name as) → Reduced (.call name as)
  | list {as : List Expr} : (∀ a ∈ as, Reduced a) → Reduced (.list as)

/-- Trees that simplify to themselves do so one after another. -/
theorem gives_simplifyAll {as : List Expr} (h : ∀ a ∈ as, Gives (simplify false a) a) :
    Gives (simplifyAll false as) as := by
  induction as with
  | nil => exact .pure []
  | cons a as ih =>
    rw [List.forall_mem_cons] at h
    rw [simplifyAll]
    exact h.1.bind ((ih h.2).bind (.pure _))

/-- A reduced tree simplifies to itself. -/
theorem Reduced.gives_simplify {e : Expr} (h : Reduced e) : Gives (simplify false e) e := by
  induction h with
  | exact | real | symbol | boolean =>
    exact Gives.checkpoint.bind (.pure _)
  | neg _ hneg ih =>
    rw [simplify]
    refine Gives.checkpoint.bind (ih.bind ?_)
    rw [hneg]
    exact .pure _
  | binary _ _ hfold iha ihb =>
    rw [simplify]
    exact Gives.checkpoint.bind (iha.bind (ihb.bind (.ofExcept hfold)))
  | compare _ _ hfold iha ihb =>
    rw [simplify]
    refine Gives.checkpoint.bind (iha.bind (ihb.bind ?_))
    rw [hfold]
    exact .pure _
  | call _ hfold ih =>
    rw [simplify]
    exact Gives.checkpoint.bind ((gives_simplifyAll ih).bind hfold)
  | list _ ih =>
    rw [simplify]
    exact Gives.checkpoint.bind ((gives_simplifyAll ih).bind (.pure _))

/-! ## What folds give -/

variable {a : Expr}

/-- A number is reduced. -/
theorem reduced_of_isNumber (h : a.isNumber = true) : Reduced a := by
  cases a with
  | exact q => exact .exact q
  | real x => exact .real x
  | _ => cases h

/-- Negation takes a sign away or puts one where none can be taken away. -/
theorem Reduced.negate (h : Reduced a) : Reduced (negate a) := by
  induction h with
  | exact q =>
    rw [Expr.negate]
    split
    · exact .exact _
    · exact .real _
  | real x => rw [Expr.negate]; exact .real _
  | symbol name => exact .neg (.symbol name) rfl
  | boolean b => exact .neg (.boolean b) rfl
  | neg ha _ _ => rw [Expr.negate]; exact ha
  | binary ha hb h _ _ => exact .neg (.binary ha hb h) rfl
  | compare ha hb h _ _ => exact .neg (.compare ha hb h) rfl
  | call has h _ => exact .neg (.call has h) rfl
  | list _ ih => rw [Expr.negate]; exact .list (forall_mem_negateAll ih)

/-- Folds keep trees reduced, whatever their names are. -/
theorem reduced_kept : Kept (fun _ => True) Reduced where
  number := reduced_of_isNumber
  boolean := .boolean
  symbol _ := .symbol _
  negate := Reduced.negate
  list := ⟨fun h => by cases h; assumption, .list⟩
  binary := .binary
  compare := .compare
  call _ := .call

/-- Simplification gives reduced trees. -/
theorem reduced_simplify {e c : Expr} {before after : List String}
    (h : (simplify false e).run.run before = (.ok c, after)) : Reduced c :=
  reduced_kept.simplify (named_of_forall (fun _ => trivial) e) h

/-- What simplification gives, it gives back. -/
theorem simplify_idempotent {e c : Expr} {before after : List String}
    (h : (simplify false e).run.run before = (.ok c, after)) (warnings : List String) :
    ((simplify false c).run.run warnings).1 = .ok c :=
  (reduced_simplify h).gives_simplify warnings

theorem simplify_idempotent_negations :
    (simplify false (.list [
        .neg (.binary .subtract (.exact ⟨0, 1⟩) (.binary .power (.symbol "x")
          (.binary .add (.exact ⟨1, 3⟩) (.exact ⟨2, 3⟩)))),
        .binary .multiply (.call "Max" [.symbol "y", .exact ⟨2, 1⟩]) (.exact ⟨6, 1⟩)])).run.run [] =
      (.ok (.list [.symbol "x", .binary .multiply (.call "Max" [.symbol "y", .exact ⟨2, 1⟩])
        (.exact ⟨6, 1⟩)]), []) ∧
    ((simplify false (.list [.symbol "x", .binary .multiply
        (.call "Max" [.symbol "y", .exact ⟨2, 1⟩]) (.exact ⟨6, 1⟩)])).run.run ["early"]).1 =
      .ok (.list [.symbol "x", .binary .multiply (.call "Max" [.symbol "y", .exact ⟨2, 1⟩])
        (.exact ⟨6, 1⟩)]) := by
  have h : (simplify false (.list [
        .neg (.binary .subtract (.exact ⟨0, 1⟩) (.binary .power (.symbol "x")
          (.binary .add (.exact ⟨1, 3⟩) (.exact ⟨2, 3⟩)))),
        .binary .multiply (.call "Max" [.symbol "y", .exact ⟨2, 1⟩]) (.exact ⟨6, 1⟩)])).run.run [] =
      (.ok (.list [.symbol "x", .binary .multiply (.call "Max" [.symbol "y", .exact ⟨2, 1⟩])
        (.exact ⟨6, 1⟩)]), []) := rfl
  exact ⟨h, simplify_idempotent h ["early"]⟩

end Expr

end Reckoner
