import Reckoner.Proofs.Fraction.Approximation

/-!
# Comparison of fractions

Fractions are compared as doubles, so every comparison of them is decided, and by the order of their
approximate values. That order is the exact one for equal fractions, for whole numbers up to
`2 ^ 53`, for small parts, and for all fractions that are not too close together.
-/

namespace Reckoner

open Float.Model (UnpackedFloat)

namespace Relation

/-- Whether the relation holds between numbers with the order. -/
def decides : Relation → Ordering → Bool
  | equal, o => o.isEq
  | notEqual, o => o.isNe
  | less, o => o.isLT
  | lessEqual, o => o.isLE
  | greater, o => o.isGT
  | greaterEqual, o => o.isGE

/-- The six answers tell the order. -/
theorem forall_decides_eq_iff {o r : Ordering} : (∀ f, decides f o = decides f r) ↔ o = r := by
  constructor
  · intro h
    have hless := h .less
    have hgreater := h .greater
    revert hless hgreater
    cases o <;> cases r <;> decide
  · rintro rfl _
    rfl

variable {k l : ℕ} {x y : Float} {p q : ℚ}

/-- Doubles are in the strict order of what they represent. -/
private theorem decide_lt_eq (hx : Represents k (unpacked x) p) (hy : Represents l (unpacked y) q) :
    decide (x < y) = (cmp p q).isLT := by
  rw [Bool.eq_iff_iff, decide_eq_true_iff, lt_iff_unpacked, UnpackedFloat.lt, hx.compare_eq hy]
  cases cmp p q <;> decide

/-- Doubles are in the order of what they represent. -/
private theorem decide_le_eq (hx : Represents k (unpacked x) p) (hy : Represents l (unpacked y) q) :
    decide (x ≤ y) = (cmp p q).isLE := by
  rw [Bool.eq_iff_iff, decide_eq_true_iff, le_iff_unpacked, UnpackedFloat.le, hx.compare_eq hy]
  cases cmp p q <;> decide

/-- A relation between doubles is one between their values. -/
theorem holds_eq (hx : Represents k (unpacked x) p) (hy : Represents l (unpacked y) q)
    (f : Relation) : f.holds x y = f.decides (cmp p q) := by
  have hequal : (x == y) = (cmp p q).isEq := by
    change ((unpacked x).compare (unpacked y) == some .eq) = _
    rw [hx.compare_eq hy]
    cases cmp p q <;> rfl
  cases f with
  | equal => exact hequal
  | notEqual =>
    rw [holds, bne, hequal]
    cases cmp p q <;> rfl
  | less => exact decide_lt_eq hx hy
  | lessEqual => exact decide_le_eq hx hy
  | greater =>
    rw [holds, decide_lt_eq hy hx, ← cmp_swap, Ordering.isLT_swap]
    rfl
  | greaterEqual =>
    rw [holds, decide_le_eq hy hx, ← cmp_swap, Ordering.isLE_swap]
    rfl

end Relation

namespace Fraction

variable {a b : Fraction}

/-- Fractions whose doubles have their order. -/
inductive Discernible (a b : Fraction) : Prop where
  | same : a = b → Discernible a b
  | whole : a.isWhole = true → b.isWhole = true → a.num.natAbs ≤ 2 ^ 53 → b.num.natAbs ≤ 2 ^ 53 →
    Discernible a b
  | small : a.num.natAbs < 2 ^ 25 → a.den.natAbs < 2 ^ 25 → b.num.natAbs < 2 ^ 25 →
    b.den.natAbs < 2 ^ 25 → Discernible a b
  | apart : |a.value| + |b.value| < 2 ^ 51 * |a.value - b.value| → Discernible a b

/-- Different fractions with small parts are not close together. -/
private theorem apart_of_small (ha : a.Lowest) (hb : b.Lowest) (hna : a.num.natAbs < 2 ^ 25)
    (hda : a.den.natAbs < 2 ^ 25) (hnb : b.num.natAbs < 2 ^ 25) (hdb : b.den.natAbs < 2 ^ 25)
    (hne : a ≠ b) : |a.value| + |b.value| < 2 ^ 51 * |a.value - b.value| := by
  have hposa : (0 : ℚ) < a.den := Int.cast_pos.mpr ha.den_pos
  have hposb : (0 : ℚ) < b.den := Int.cast_pos.mpr hb.den_pos
  have hvalue : a.value = (a.num * b.den : ℤ) / (a.den * b.den) := by
    rw [value, Int.cast_mul, mul_div_mul_right _ _ hposb.ne']
  have hvalue' : b.value = (b.num * a.den : ℤ) / (a.den * b.den) := by
    rw [value, Int.cast_mul, mul_comm (a.den : ℚ), mul_div_mul_right _ _ hposa.ne']
  have hcross : a.num * b.den ≠ b.num * a.den := fun h => hne (ha.eq_of_value_eq hb (by
    rw [hvalue, hvalue', h]))
  have hproduct {m n : ℤ} (hm : m.natAbs < 2 ^ 25) (hn : n.natAbs < 2 ^ 25) :
      (m * n).natAbs < 2 ^ 50 :=
    calc (m * n).natAbs = m.natAbs * n.natAbs := Int.natAbs_mul m n
      _ < 2 ^ 25 * 2 ^ 25 := Nat.mul_lt_mul'' hm hn
      _ = 2 ^ 50 := by decide
  have hleft := hproduct hna hdb
  have hright := hproduct hnb hda
  rw [hvalue, hvalue', ← sub_div, abs_div, abs_div, abs_div, ← add_div, ← mul_div_assoc]
  refine div_lt_div_of_pos_right ?_ (abs_pos.mpr (mul_pos hposa hposb).ne')
  -- the cross products differ by at least one
  generalize a.num * b.den = m at *
  generalize b.num * a.den = n at *
  have hparts : |m| + |n| < 2 ^ 51 * |m - n| := by
    rw [Int.abs_eq_natAbs, Int.abs_eq_natAbs, Int.abs_eq_natAbs]
    omega
  exact_mod_cast hparts

/-- Rounding keeps the order of these fractions. -/
theorem Discernible.cmp_eq (h : Discernible a b) (ha : a.Lowest) (hb : b.Lowest) :
    cmp a.approximation b.approximation = a.compare b := by
  rw [ha.compare_eq hb]
  have hapart : |a.value| + |b.value| < 2 ^ 51 * |a.value - b.value| →
      cmp a.approximation b.approximation = cmp a.value b.value :=
    cmp_eq_of_errors (approximation_error ha) (approximation_error hb)
  cases h with
  | same h =>
    rw [h, cmp_self_eq_eq, cmp_self_eq_eq]
  | whole hwa hwb hna hnb =>
    obtain ⟨m, d⟩ := a
    obtain ⟨n, e⟩ := b
    obtain rfl : d = 1 := eq_of_beq hwa
    obtain rfl : e = 1 := eq_of_beq hwb
    exact congrArg₂ cmp (approximation_ofInt hna) (approximation_ofInt hnb)
  | small hna hda hnb hdb =>
    rcases eq_or_ne a b with rfl | hne
    · rw [cmp_self_eq_eq, cmp_self_eq_eq]
    · exact hapart (apart_of_small ha hb hna hda hnb hdb hne)
  | apart h => exact hapart h

end Fraction

namespace Expr

variable {a b : Fraction} {o r : Ordering}

/-- All six relations between the fractions are decided, as the order says and without a warning. -/
def ComparedAs (a b : Fraction) (o : Ordering) : Prop := ∀ (f : Relation) (warnings : List String),
  (simplify false (.compare f (.exact a) (.exact b))).run.run warnings =
    (.ok (.boolean (f.decides o)), warnings)

/-- There is one order at most in which the doubles are compared. -/
theorem ComparedAs.unique (ho : ComparedAs a b o) (hr : ComparedAs a b r) : o = r := by
  rw [← Relation.forall_decides_eq_iff]
  intro f
  have hsame := (ho f []).symm.trans (hr f [])
  injection hsame with hsame
  injection hsame with hsame
  injection hsame

/-- Fractions are compared as doubles. -/
theorem comparedAs_approximations (ha : a.Normal) (hb : b.Normal) :
    ComparedAs a b (cmp a.approximation b.approximation) := by
  intro f warnings
  have hfold : foldCompare f (.exact a) (.exact b) = .boolean (f.holds a.toFloat b.toFloat) := rfl
  rw [← Relation.holds_eq ha.represents_toFloat hb.represents_toFloat, ← hfold]
  rfl

/-- The order of the approximate values decides. The answers are those of the exact order if and
only if the two are the same, and they are the same for discernible fractions. -/
theorem simplify_compare (ha : a.Normal) (hb : b.Normal) :
    ComparedAs a b (cmp a.approximation b.approximation) ∧
    (ComparedAs a b (a.compare b) ↔ cmp a.approximation b.approximation = a.compare b) ∧
    (a.Discernible b → ComparedAs a b (a.compare b)) := by
  have hdecided := comparedAs_approximations ha hb
  have hiff : ComparedAs a b (a.compare b) ↔
      cmp a.approximation b.approximation = a.compare b :=
    ⟨hdecided.unique, fun h => h ▸ hdecided⟩
  exact ⟨hdecided, hiff, fun h => hiff.mpr (h.cmp_eq ha.lowest hb.lowest)⟩

theorem simplify_compare_thirds :
    Fraction.Normal ⟨1, 3⟩ ∧ Fraction.Normal ⟨2, 3⟩ ∧
    (simplify false (.compare .less (.exact ⟨1, 3⟩) (.exact ⟨2, 3⟩))).run.run ["early"] =
      (.ok (.boolean true), ["early"]) := by
  have ha : Fraction.Normal ⟨1, 3⟩ := ⟨by decide, by decide, by decide⟩
  have hb : Fraction.Normal ⟨2, 3⟩ := ⟨by decide, by decide, by decide⟩
  have hsmall : Fraction.Discernible ⟨1, 3⟩ ⟨2, 3⟩ :=
    .small (by decide) (by decide) (by decide) (by decide)
  exact ⟨ha, hb, (simplify_compare ha hb).2.2 hsmall .less ["early"]⟩

/-- Neighbours beyond `2 ^ 53` are taken for equal, and fractions there can change places. -/
theorem compare_misses_neighbours :
    (Fraction.Normal ⟨9007199254740992, 1⟩ ∧ Fraction.Normal ⟨9007199254740993, 1⟩ ∧
      Fraction.compare ⟨9007199254740992, 1⟩ ⟨9007199254740993, 1⟩ = .lt ∧
      (simplify false (.compare .equal (.exact ⟨9007199254740992, 1⟩)
        (.exact ⟨9007199254740993, 1⟩))).run.run [] = (.ok (.boolean true), [])) ∧
    Fraction.Normal ⟨9007199254740995, 1⟩ ∧ Fraction.Normal ⟨27021597764222986, 3⟩ ∧
      Fraction.compare ⟨9007199254740995, 1⟩ ⟨27021597764222986, 3⟩ = .lt ∧
      (simplify false (.compare .greater (.exact ⟨9007199254740995, 1⟩)
        (.exact ⟨27021597764222986, 3⟩))).run.run [] = (.ok (.boolean true), []) :=
  ⟨⟨⟨by decide, by decide, by decide⟩, ⟨by decide, by decide, by decide⟩, by decide, rfl⟩,
    ⟨by decide, by decide, by decide⟩, ⟨by decide, by decide, by decide⟩, by decide, rfl⟩

end Expr

end Reckoner
