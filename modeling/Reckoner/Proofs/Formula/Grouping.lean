import Reckoner.Proofs.Expr.Meaning
import Reckoner.Proofs.Formula.Operands

/-!
# The expression that a formula shows

The display form has no brackets around comparisons, so that `(a = b) + c` and `a = b + c` look the
same, and so do `(a = b) = c` and `a = (b = c)`. `asShown` gives the expression that the formula
shows by the usual rules: comparisons are looser than sums, and grouped to the left. Two
expressions look the same exactly when they show the same expression. What shows itself is what
has brackets in the places that need them, and there the display form tells the value.
-/

namespace Reckoner.Expr

open Formula

/-! ## Grouping -/

/-- A comparison of an expression with the first side of the comparisons behind it. -/
def compareBehind (f : Relation) (a : Expr) : Expr → Expr
  | compare g b c => compare g (compareBehind f a b) c
  | b => compare f a b

/-- A sum or difference takes the last side of the comparisons in front of it. -/
def binaryBehind (f : Operation) (b : Expr) : Expr → Expr
  | compare g a c => compare g a (binary f c b)
  | a => binary f a b

/-- The expression that the formula shows. -/
def asShown : Expr → Expr
  | neg a => neg (asShown a)
  | binary f a b =>
    if f.level ≤ 1 then binaryBehind f (asShown b) (asShown a)
    else binary f (asShown a) (asShown b)
  | compare f a b => compareBehind f (asShown a) (asShown b)
  | e => e

section

variable {a b : Expr} (f : Relation) (g : Operation)

/-- With a single side behind it the comparison stays as it is. -/
theorem compareBehind_of_not (a : Expr) (hb : b.isComparison = false) :
    compareBehind f a b = compare f a b := by
  cases b with
  | compare => cases hb
  | _ => rfl

/-- Behind a single operand the sum stays as it is. -/
theorem binaryBehind_of_not (b : Expr) (ha : a.isComparison = false) :
    binaryBehind g b a = binary g a b := by
  cases a with
  | compare => cases ha
  | _ => rfl

/-- A regrouped comparison is a comparison. -/
theorem level_compareBehind (a b : Expr) : (compareBehind f a b).level = 0 := by
  cases b <;> rfl

/-- A regrouped sum does not bind closer. -/
theorem level_binaryBehind (a b : Expr) : (binaryBehind g b a).level ≤ g.level := by
  cases a with
  | compare => exact Nat.zero_le _
  | _ => exact Nat.le_refl _

/-- A regrouped comparison is plain if both sides are. -/
theorem isPlain_compareBehind (a b : Expr) :
    (compareBehind f a b).isPlain = (a.isPlain && b.isPlain) := by
  fun_induction compareBehind f a b with
  | case1 h b c ih => rw [isPlain, ih, isPlain, Bool.and_assoc]
  | case2 b hb => rw [isPlain]

/-- A regrouped sum is plain if both operands are. -/
theorem isPlain_binaryBehind (a b : Expr) :
    (binaryBehind g b a).isPlain = (a.isPlain && b.isPlain) := by
  fun_cases binaryBehind g b a with
  | case1 f a c => rw [isPlain, isPlain, isPlain, Bool.and_assoc]
  | case2 a ha => rw [isPlain]

/-- A regrouped comparison is shown as the one it was. -/
theorem formula_compareBehind (a b : Expr) :
    formula (compareBehind f a b) = formula (compare f a b) := by
  fun_induction compareBehind f a b with
  | case1 h b c ih => simp only [formula, ih, List.append_assoc, List.cons_append]
  | case2 b hb => rfl

/-- A regrouped sum is shown as the one it was. -/
theorem formula_binaryBehind (hg : g.level ≤ 1) (a b : Expr) :
    formula (binaryBehind g b a) = formula (binary g a b) := by
  fun_cases binaryBehind g b a with
  | case1 f a c =>
    cases g with
    | add | subtract => simp only [formula, List.append_assoc, List.cons_append]
    | _ => exact absurd hg (by decide)
  | case2 a ha => rfl

/-- Regrouping parts a comparison whose sides are parted. -/
theorem isParted_compareBehind (ha : a.isParted = true) (hb : b.isParted = true) :
    (compareBehind f a b).isParted = true := by
  fun_induction compareBehind f a b with
  | case1 h b c ih =>
    simp only [isParted, Bool.and_eq_true] at hb ⊢
    exact ⟨⟨hb.1.1, ih hb.1.2⟩, hb.2⟩
  | case2 b hb' =>
    have hnot : b.isComparison = false := by
      cases b with
      | compare g c d => exact absurd rfl (hb' g c d)
      | _ => rfl
    rw [isParted, hnot, ha, hb]
    rfl

/-- Regrouping parts a sum whose operands are parted. -/
theorem isParted_binaryBehind (ha : a.isParted = true) (hb : b.isParted = true) :
    (binaryBehind g b a).isParted = true := by
  fun_cases binaryBehind g b a with
  | case1 f a c =>
    simp only [isParted, Bool.and_eq_true] at ha ⊢
    exact ⟨⟨rfl, ha.1.2⟩, ⟨by rw [ha.1.1, Bool.or_true], ha.2⟩, hb⟩
  | case2 a ha' =>
    have hnot : a.isComparison = false := by
      cases a with
      | compare g c d => exact absurd rfl (ha' g c d)
      | _ => rfl
    rw [isParted, hnot, ha, hb, Bool.not_false, Bool.or_true]
    rfl

end

/-! ## What is shown -/

/-- What is shown is plain exactly if the expression is. -/
theorem isPlain_asShown (e : Expr) : (asShown e).isPlain = e.isPlain := by
  fun_induction asShown e with
  | case1 a ih => exact ih
  | case2 f a b hf ihb iha => rw [isPlain_binaryBehind, iha, ihb, isPlain]
  | case3 f a b hf iha ihb => rw [isPlain, iha, ihb, isPlain]
  | case4 f a b iha ihb => rw [isPlain_compareBehind, iha, ihb, isPlain]
  | case5 => rfl

/-- Only sums and comparisons trade places, and what looks for brackets does not tell them apart. -/
theorem level_asShown_lt {k : Nat} (hk : 2 ≤ k) (e : Expr) :
    (asShown e).level < k ↔ e.level < k := by
  fun_cases asShown e with
  | case2 f a b hf =>
    have hshown := level_binaryBehind f (asShown a) (asShown b)
    have hlevel : (binary f a b).level = f.level := rfl
    omega
  | case4 f a b =>
    rw [level_compareBehind]
    exact iff_of_true (by omega) (Nat.lt_of_lt_of_le Nat.zero_lt_two hk)
  | _ => rfl

/-- What is shown has growing brackets where the expression has them. -/
theorem inFence_asShown {k : Nat} (hk : 2 ≤ k) (e : Expr) (ms : List Mark) :
    inFence ((asShown e).level < k) ms = inFence (e.level < k) ms := by
  rw [decide_eq_decide.mpr (level_asShown_lt hk e)]

/-- The same is shown. -/
theorem formula_asShown (e : Expr) : formula (asShown e) = formula e := by
  fun_induction asShown e with
  | case1 a ih => simp only [formula, ih, inFence_asShown (k := 3) (by decide)]
  | case2 f a b hf ihb iha =>
    rw [formula_binaryBehind f hf]
    cases f <;> simp only [formula, iha, ihb, inFence_asShown (k := 2) (by decide)]
    all_goals exact absurd hf (by decide)
  | case3 f a b hf iha ihb =>
    cases f <;>
      simp only [formula, iha, ihb, inFence_asShown (k := 2) (by decide),
        inFence_asShown (k := 3) (by decide), inFence_asShown (k := 5) (by decide)]
  | case4 f a b iha ihb => rw [formula_compareBehind, formula, formula, iha, ihb]
  | case5 => rfl

example : asShown (compare .less (symbol "a") (compare .equal (symbol "b") (symbol "c"))) =
    compare .equal (compare .less (symbol "a") (symbol "b")) (symbol "c") := rfl

/-- What is shown has brackets in the places that need them. -/
theorem isParted_asShown (e : Expr) : (asShown e).isParted = true := by
  fun_induction asShown e with
  | case1 a ih => exact ih
  | case2 f a b hf ihb iha => exact isParted_binaryBehind f iha ihb
  | case3 f a b hf iha ihb =>
    rw [isParted, iha, ihb, decide_eq_true (Nat.lt_of_not_le hf)]
    rfl
  | case4 f a b iha ihb => exact isParted_compareBehind f iha ihb
  | case5 e hneg hbinary hcompare =>
    cases e with
    | neg a => exact absurd rfl (hneg a)
    | binary f a b => exact absurd rfl (hbinary f a b)
    | compare f a b => exact absurd rfl (hcompare f a b)
    | _ => rfl

/-- What has brackets in the places that need them shows itself. -/
theorem asShown_eq_self {e : Expr} (h : e.isParted = true) : asShown e = e := by
  fun_induction asShown e with
  | case1 a ih => rw [ih h]
  | case2 f a b hf ihb iha =>
    simp only [isParted, Bool.and_eq_true, Bool.or_eq_true, decide_eq_true_eq,
      Bool.not_eq_true'] at h
    rw [iha h.1.2, ihb h.2, binaryBehind_of_not f b (h.1.1.resolve_left (by omega))]
  | case3 f a b hf iha ihb =>
    simp only [isParted, Bool.and_eq_true] at h
    rw [iha h.1.2, ihb h.2]
  | case4 f a b iha ihb =>
    simp only [isParted, Bool.and_eq_true, Bool.not_eq_true'] at h
    rw [iha h.1.2, ihb h.2, compareBehind_of_not f a h.1.1]
  | case5 => rfl

/-- Parted expressions are those that are what they show. -/
theorem asShown_eq_self_iff {e : Expr} : asShown e = e ↔ e.isParted = true :=
  ⟨fun h => h ▸ isParted_asShown e, asShown_eq_self⟩

/-- Expressions with the same formula show the same expression. -/
theorem asShown_eq_of_formula {a b : Expr} (ha : a.isPlain = true) (hb : b.isPlain = true)
    (h : formula a = formula b) : asShown a = asShown b :=
  formula_injective ((isPlain_asShown a).trans ha) ((isPlain_asShown b).trans hb)
    (isParted_asShown a) (isParted_asShown b) (by rw [formula_asShown, formula_asShown, h])

/-- The same formula has the same text. -/
theorem typeset_eq_of_formula {a b : Expr} (ha : a.isPlain = true) (hb : b.isPlain = true)
    (h : formula a = formula b) : typeset a = typeset b := by
  rw [← String.toList_inj, toList_typeset ha, toList_typeset hb, h]

/-- The expression that is shown has the same text, and it is the same expression exactly when no
comparison lacks its brackets. Two expressions look the same exactly when they show the same
expression; where no comparison in either lacks its brackets, they then have the same value. -/
theorem typeset_tells {a b : Expr} (ha : a.isPlain = true) (hb : b.isPlain = true) :
    typeset (asShown a) = typeset a ∧ (asShown a = a ↔ a.isParted = true) ∧
      (typeset a = typeset b ↔ asShown a = asShown b) ∧
      (a.isParted = true → b.isParted = true → typeset a = typeset b → Agrees a b) := by
  have hlook (h : typeset a = typeset b) : asShown a = asShown b :=
    asShown_eq_of_formula ha hb (formula_eq_of_typeset ha hb h)
  have hshown (h : asShown a = asShown b) : typeset a = typeset b := by
    refine typeset_eq_of_formula ha hb ?_
    rw [← formula_asShown a, h, formula_asShown]
  refine ⟨?_, asShown_eq_self_iff, ⟨hlook, hshown⟩, fun hpa hpb h => ?_⟩
  · exact typeset_eq_of_formula ((isPlain_asShown a).trans ha) ha (formula_asShown a)
  · have hsame := hlook h
    rw [asShown_eq_self hpa, asShown_eq_self hpb] at hsame
    exact hsame ▸ Agrees.refl a

/-- `(a = b) + c` shows `a = b + c`, and so looks the same; `a = b + c` shows itself. -/
theorem typeset_tells_sum :
    let a := symbol "a"
    let b := symbol "b"
    let c := symbol "c"
    typeset (binary .add (compare .equal a b) c) = typeset (compare .equal a (binary .add b c)) ∧
      asShown (compare .equal a (binary .add b c)) = compare .equal a (binary .add b c) ∧
      Agrees (compare .equal a (binary .add b c)) (compare .equal a (binary .add b c)) := by
  have hsum : (binary .add (compare .equal (symbol "a") (symbol "b")) (symbol "c")).isPlain =
    true := by decide
  have hcompare : (compare .equal (symbol "a") (binary .add (symbol "b") (symbol "c"))).isPlain =
    true := by decide
  obtain ⟨-, hself, -, hagrees⟩ := typeset_tells hcompare hcompare
  exact ⟨(typeset_tells hsum hcompare).2.2.1.mpr rfl, hself.mpr rfl, hagrees rfl rfl rfl⟩

/-- Where a comparison is the first operand of a sum, its brackets are missing. -/
theorem typeset_add_compare (f : Relation) (a b c : Expr) :
    typeset (binary .add (compare f a b) c) = typeset (compare f a (binary .add b c)) := by
  simp only [typeset, String.append_assoc]

/-- Two expressions that look the same need not have the same value: with a comparison that is one
or zero and symbols that are one, `(a = b) + c` is two and `a = b + c` is zero. -/
theorem typeset_hides_comparison :
    ¬ ∀ a b : Expr, a.isPlain = true → b.isPlain = true → typeset a = typeset b →
      Agrees a b := by
  intro h
  let i : Interpretation :=
    { symbol := fun _ => 1
      real := fun _ => 0
      boolean := fun _ => 0
      power := fun _ _ => 0
      compare := fun _ x y => if x = y then 1 else 0
      call := fun _ _ => 0
      list := fun _ => 0 }
  have hvalue := h (binary .add (compare .equal (symbol "a") (symbol "b")) (symbol "c"))
    (compare .equal (symbol "a") (binary .add (symbol "b") (symbol "c"))) (by decide) (by decide)
    (typeset_add_compare .equal _ _ _) i
  simp only [Interpretation.value, Interpretation.operation, i] at hvalue
  norm_num at hvalue

end Reckoner.Expr
