import Reckoner.Engine.Approximate
import Reckoner.Proofs.Engine.Preservation

/-!
# Approximating once is enough

Nothing is left to approximate in a tree whose nodes with a value are approximate numbers, in
which negation can take no sign away and no comparison can be decided. Approximation gives such a
tree, which has the value of the expression it came from, or like it none, and gives it back.
-/

namespace Reckoner.Expr

open Run

variable {a c e : Expr} {as cs : List Expr} {x : Float}

/-- Nothing in the tree is left to approximate. -/
inductive Approximate : Expr → Prop where
  | real (x : Float) : Approximate (.real x)
  | symbol {name : String} : value? none (.symbol name) = none → Approximate (.symbol name)
  | boolean (t : Bool) : Approximate (.boolean t)
  | neg {a : Expr} : Approximate a → negate a = .neg a → value? none (.neg a) = none →
    Approximate (.neg a)
  | binary {f : Operation} {a b : Expr} : Approximate a → Approximate b →
    value? none (.binary f a b) = none → Approximate (.binary f a b)
  | compare {g : Relation} {a b : Expr} : Approximate a → Approximate b →
    foldCompare g a b = .compare g a b → Approximate (.compare g a b)
  | call {name : String} {as : List Expr} : (∀ a ∈ as, Approximate a) →
    value? none (.call name as) = none → Approximate (.call name as)
  | list {as : List Expr} : (∀ a ∈ as, Approximate a) → Approximate (.list as)

/-! ## Runs -/

/-- A double is given as it is, with or without a warning. -/
theorem gives_approximated (x : Float) : Gives (approximated x) (.real x) := by
  unfold approximated
  split
  · exact (Gives.warn _).bind (.pure _)
  · exact .pure _

/-- What has a value is replaced by it. -/
theorem gives_of_value (h : value? none e = some x) : Gives (numericize false e) (.real x) := by
  cases e with
  | exact q =>
    rw [value?] at h
    cases h
    rw [numericize]
    exact Gives.checkpoint.bind (gives_approximated _)
  | real y =>
    rw [value?] at h
    cases h
    rw [numericize]
    exact Gives.checkpoint.bind (gives_approximated _)
  | symbol name =>
    rw [value?] at h
    rw [numericize, h]
    exact Gives.checkpoint.bind (gives_approximated x)
  | neg a =>
    rw [numericize, h]
    exact Gives.checkpoint.bind (gives_approximated x)
  | binary f a b =>
    rw [numericize, h]
    exact Gives.checkpoint.bind (gives_approximated x)
  | call name as =>
    rw [numericize, h]
    exact Gives.checkpoint.bind (gives_approximated x)
  | boolean t => rw [value?] at h; cases h
  | compare g a b => rw [value?] at h; cases h
  | list as => rw [value?] at h; cases h

/-- Several expressions are approximated one after another. -/
theorem gives_numericizeAll (h : ∀ a ∈ as, Gives (numericize false a) a) :
    Gives (numericizeAll false as) as := by
  induction as with
  | nil => exact .pure []
  | cons a as ih =>
    rw [List.forall_mem_cons] at h
    rw [numericizeAll]
    exact h.1.bind ((ih h.2).bind (.pure _))

/-- A tree with nothing left to approximate is what it is approximated by. -/
theorem Approximate.gives_numericize (h : Approximate e) : Gives (numericize false e) e := by
  induction h with
  | real x => exact gives_of_value (by rw [value?])
  | symbol hvalue =>
    rw [value?] at hvalue
    rw [numericize, hvalue]
    exact Gives.checkpoint.bind (.pure _)
  | boolean t =>
    rw [numericize]
    exact Gives.checkpoint.bind (.pure _)
  | neg _ hneg hvalue ih =>
    rw [numericize, hvalue]
    refine Gives.checkpoint.bind (ih.bind ?_)
    rw [hneg]
    exact .pure _
  | binary _ _ hvalue iha ihb =>
    rw [numericize, hvalue]
    exact Gives.checkpoint.bind (iha.bind (ihb.bind (.pure _)))
  | compare _ _ hfold iha ihb =>
    rw [numericize]
    refine Gives.checkpoint.bind (iha.bind (ihb.bind ?_))
    rw [hfold]
    exact .pure _
  | call _ hvalue ih =>
    rw [numericize, hvalue]
    exact Gives.checkpoint.bind ((gives_numericizeAll ih).bind (.pure _))
  | list _ ih =>
    rw [numericize]
    exact Gives.checkpoint.bind ((gives_numericizeAll ih).bind (.pure _))

/-! ## Nodes -/

/-- What has no value has none with a sign taken away or put. -/
theorem value?_negate (h : value? none a = none) : value? none (negate a) = none := by
  cases a with
  | exact | real => rw [value?] at h; cases h
  | neg a => rwa [value?, Option.map_eq_none_iff] at h
  | list as => rw [negate, value?]
  | symbol | boolean | binary | compare | call =>
    change value? none (.neg _) = none
    rw [value?, h, Option.map_none]

/-- A sign before a tree that negation only puts it before, and that has no value. -/
theorem Approximate.signed (h : Approximate a) (hneg : negate a = .neg a)
    (hvalue : value? none a = none) : Approximate (negate a) := by
  have hnone := value?_negate hvalue
  rw [hneg] at hnone ⊢
  exact .neg h hneg hnone

/-- The negation of an approximate tree is approximate. -/
theorem Approximate.negate (h : Approximate a) : Approximate (negate a) := by
  induction h with
  | real x => rw [Expr.negate]; exact .real _
  | neg h _ _ _ => rw [Expr.negate]; exact h
  | list _ ih => rw [Expr.negate]; exact .list (forall_mem_negateAll ih)
  | symbol hvalue => exact (symbol hvalue).signed rfl hvalue
  | boolean t => exact (boolean t).signed rfl (by rw [value?])
  | binary ha hb hvalue _ _ =>
    exact (binary ha hb hvalue).signed rfl hvalue
  | compare ha hb hfold _ _ =>
    exact (compare ha hb hfold).signed rfl (by rw [value?])
  | call has hvalue _ =>
    exact (call has hvalue).signed rfl hvalue

/-- A comparison of approximate trees is approximate. -/
theorem Approximate.foldCompare {g : Relation} {a b : Expr} (ha : Approximate a)
    (hb : Approximate b) : Approximate (foldCompare g a b) := by
  rcases foldCompare_eq_or g a b with h | ⟨t, h⟩
  · rw [h]
    exact .compare ha hb h
  · rw [h]
    exact .boolean t

/-- A comparison has no value. -/
theorem value?_foldCompare (g : Relation) (a b : Expr) :
    value? none (foldCompare g a b) = none := by
  rcases foldCompare_eq_or g a b with h | ⟨t, h⟩ <;> rw [h, value?]

/-! ## Trees -/

/-- The tree is approximated by `c`, which has the same value. -/
def Approximates (e c : Expr) : Prop :=
  Gives (numericize false e) c ∧ Approximate c ∧ value? none c = value? none e

/-- A tree with a value is approximated by it. -/
theorem approximates_of_value (h : value? none e = some x) : Approximates e (.real x) :=
  ⟨gives_of_value h, .real x, by rw [h, value?]⟩

mutual

/-- Every tree is approximated by one that has its value and nothing left to approximate. -/
theorem exists_approximates (e : Expr) : ∃ c, Approximates e c := by
  cases hvalue : value? none e with
  | some x => exact ⟨.real x, approximates_of_value hvalue⟩
  | none =>
    cases e with
    | exact | real => rw [value?] at hvalue; cases hvalue
    | symbol name =>
      have hsymbol := hvalue
      rw [value?] at hsymbol
      refine ⟨.symbol name, ?_, .symbol hvalue, rfl⟩
      rw [numericize, hsymbol]
      exact Gives.checkpoint.bind (.pure _)
    | boolean t => exact ⟨.boolean t, (Approximate.boolean t).gives_numericize, .boolean t, rfl⟩
    | neg a =>
      obtain ⟨c, hc, happrox, hsame⟩ := exists_approximates a
      refine ⟨negate c, ?_, happrox.negate, ?_⟩
      · rw [numericize, hvalue]
        exact Gives.checkpoint.bind (hc.bind (.pure _))
      · rw [hvalue]
        rw [value?, Option.map_eq_none_iff] at hvalue
        exact value?_negate (hsame.trans hvalue)
    | binary f a b =>
      obtain ⟨c, hc, hca, hcv⟩ := exists_approximates a
      obtain ⟨d, hd, hda, hdv⟩ := exists_approximates b
      have hsame : value? none (.binary f c d) = value? none (.binary f a b) := by
        rw [value?, hcv, hdv, ← value?]
      refine ⟨.binary f c d, ?_, .binary hca hda (hsame.trans hvalue), hsame⟩
      rw [numericize, hvalue]
      exact Gives.checkpoint.bind (hc.bind (hd.bind (.pure _)))
    | compare g a b =>
      obtain ⟨c, hc, hca, -⟩ := exists_approximates a
      obtain ⟨d, hd, hda, -⟩ := exists_approximates b
      refine ⟨foldCompare g c d, ?_, hca.foldCompare hda,
        (value?_foldCompare g c d).trans hvalue.symm⟩
      rw [numericize]
      exact Gives.checkpoint.bind (hc.bind (hd.bind (.pure _)))
    | call name as =>
      obtain ⟨cs, hcs, hca, hcv⟩ := exists_approximates_all as
      have hsame : value? none (.call name cs) = value? none (.call name as) := by
        rw [value?, hcv, ← value?]
      refine ⟨.call name cs, ?_, .call hca (hsame.trans hvalue), hsame⟩
      rw [numericize, hvalue]
      exact Gives.checkpoint.bind (hcs.bind (.pure _))
    | list as =>
      obtain ⟨cs, hcs, hca, -⟩ := exists_approximates_all as
      refine ⟨.list cs, ?_, .list hca, by rw [value?, value?]⟩
      rw [numericize]
      exact Gives.checkpoint.bind (hcs.bind (.pure _))

/-- Every tree of a list has an approximation with its value. -/
theorem exists_approximates_all (as : List Expr) :
    ∃ cs, Gives (numericizeAll false as) cs ∧ (∀ c ∈ cs, Approximate c) ∧
      values? none cs = values? none as := by
  cases as with
  | nil =>
    refine ⟨[], ?_, List.forall_mem_nil _, rfl⟩
    rw [numericizeAll]
    exact .pure []
  | cons a as =>
    obtain ⟨c, hc, hca, hcv⟩ := exists_approximates a
    obtain ⟨cs, hcs, hcsa, hcsv⟩ := exists_approximates_all as
    refine ⟨c :: cs, ?_, List.forall_mem_cons.mpr ⟨hca, hcsa⟩, ?_⟩
    · rw [numericizeAll]
      exact hc.bind (hcs.bind (.pure _))
    · rw [values?, hcv, hcsv, ← values?]

end

/-- Approximation gives a tree of the same value, or like the expression of none, and gives that
tree back, whatever warnings were given before. -/
theorem numericize_stable (e : Expr) :
    ∃ c, value? none c = value? none e ∧
      (∀ warnings, ((numericize false e).run.run warnings).1 = .ok c) ∧
      ∀ warnings, ((numericize false c).run.run warnings).1 = .ok c := by
  obtain ⟨c, hc, happrox, hvalue⟩ := exists_approximates e
  exact ⟨c, hvalue, hc, happrox.gives_numericize⟩

end Reckoner.Expr
