import Mathlib.Data.Finset.Max
import Reckoner.Proofs.Engine.RationalFunctions

/-!
# Calls on fractions

A function of fractions is called with their doubles. The call becomes a whole number exactly if the
function has a value near one there, and else stays as it is. So it folds to the true value or not
at all exactly if the whole number that it is near to is the true value, as it is for fractions
whose parts are not too large.
-/

namespace Reckoner

open Rounding

namespace Fraction

variable {q : Fraction} {n : ℤ}

/-! ## Fractions among whole numbers -/

/-- Whole numbers and halves up to `2 ^ 53` have exact doubles. -/
theorem approximation_eq_value (hd : q.den = 1 ∨ q.den = 2) (hn : q.num.natAbs < 2 ^ 53) :
    q.approximation = q.value := by
  have hnum : nearest q.num = q.num := nearest_intCast hn.le
  have hden : nearest q.den = q.den := by
    rcases hd with hd | hd
    · rw [hd]
      exact nearest_intCast (by decide)
    · rw [hd]
      exact nearest_intCast (by decide)
  rw [approximation, hnum, hden, value]
  rcases hd with hd | hd
  · rw [hd, Int.cast_one, div_one, hnum]
  · have hhalf := nearest_eq_self (j := q.num) (e := -1) (by
      rw [Int.abs_eq_natAbs]
      exact_mod_cast hn)
    have hvalue : (q.num : ℚ) / (2 : ℤ) = q.num * 2 ^ (-1 : ℤ) := by
      norm_num
      ring
    rw [hd, hvalue, hhalf]

/-- A fraction is a part of one away from every whole number that it is not. -/
theorem Lowest.one_le_mul_abs (hq : q.Lowest) (k : ℤ) (h : k * q.value ≠ n) :
    1 ≤ q.den * |k * q.value - n| := by
  have hden : (0 : ℚ) < q.den := Int.cast_pos.mpr hq.den_pos
  have hscaled : (q.den : ℚ) * |k * q.value - n| = |((k * q.num - n * q.den : ℤ) : ℚ)| := by
    have hinside : (q.den : ℚ) * (k * q.value - n) = (k * q.num - n * q.den : ℤ) := by
      rw [value]
      push_cast
      field_simp
    rw [← hinside, abs_mul, abs_of_pos hden]
  have hne : k * q.num - n * q.den ≠ 0 := by
    intro hzero
    refine h ?_
    have hcast : (k : ℚ) * q.num = n * q.den := by exact_mod_cast sub_eq_zero.mp hzero
    rw [value, mul_div_assoc', hcast, mul_div_assoc, div_self hden.ne', mul_one]
  rw [hscaled]
  exact_mod_cast Int.one_le_abs hne

/-- The error of the double, in parts of one. -/
theorem Lowest.den_mul_error (hq : q.Lowest) :
    q.den * |q.approximation - q.value| ≤ q.num.natAbs / 2 ^ 51 := by
  have hden : (0 : ℚ) < q.den := Int.cast_pos.mpr hq.den_pos
  have hvalue : |q.value| = q.num.natAbs / q.den := by
    rw [value, abs_div, abs_of_pos hden, Nat.cast_natAbs, Int.cast_abs]
  calc q.den * |q.approximation - q.value| ≤ q.den * (|q.value| / 2 ^ 51) :=
        mul_le_mul_of_nonneg_left (approximation_error hq) hden.le
    _ = q.num.natAbs / 2 ^ 51 := by
        rw [hvalue]
        field_simp

/-- What is closer to a number than a third one is on the same side of the third. -/
private theorem cmp_eq_of_abs_lt {x p r : ℚ} (h : |x - p| < |p - r|) : cmp x r = cmp p r := by
  rw [abs_lt] at h
  rcases lt_trichotomy p r with hp | rfl | hp
  · rw [abs_of_neg (sub_neg.mpr hp)] at h
    rw [(cmp_eq_lt_iff _ _).mpr hp, cmp_eq_lt_iff]
    linarith
  · rw [sub_self, abs_zero] at h
    linarith
  · rw [abs_of_pos (sub_pos.mpr hp)] at h
    rw [(cmp_eq_gt_iff _ _).mpr hp, cmp_eq_gt_iff]
    linarith

/-- The double of a fraction lies between the same halves of whole numbers. -/
theorem Lowest.cmp_halves (hq : q.Lowest) (hn : q.num.natAbs < 2 ^ 50) (n : ℤ) :
    cmp (2 * q.approximation) n = cmp (2 * q.value) n := by
  have hden : (0 : ℚ) < q.den := Int.cast_pos.mpr hq.den_pos
  by_cases hhalf : 2 * q.value = n
  · have hnum : 2 * q.num = n * q.den := by
      rw [value, mul_div_assoc', div_eq_iff hden.ne'] at hhalf
      exact_mod_cast hhalf
    have hdvd : q.den ∣ 2 :=
      Int.dvd_of_dvd_mul_left_of_gcd_one (hnum ▸ Dvd.intro_left n rfl)
        ((Int.gcd_comm _ _).trans hq.coprime)
    have hle := Int.le_of_dvd (by decide) hdvd
    have hpos := hq.den_pos
    rw [approximation_eq_value (by omega) (by omega)]
  · refine cmp_eq_of_abs_lt (lt_of_mul_lt_mul_left ?_ hden.le)
    have hapart := hq.one_le_mul_abs 2 (n := n) (by exact_mod_cast hhalf)
    have herror := hq.den_mul_error
    have hn' : (q.num.natAbs : ℚ) < 2 ^ 50 := by exact_mod_cast hn
    rw [Int.cast_ofNat] at hapart
    calc q.den * |2 * q.approximation - 2 * q.value|
        = 2 * (q.den * |q.approximation - q.value|) := by
          rw [← mul_sub, abs_mul, abs_two]
          ring
      _ < 1 := by linarith
      _ ≤ q.den * |2 * q.value - n| := hapart

/-- The double of a fraction has its sign. -/
theorem Lowest.cmp_zero (hq : q.Lowest) : cmp q.approximation 0 = cmp q.value 0 := by
  have herror := approximation_error hq
  rcases eq_or_ne q.value 0 with hzero | hne
  · rw [hzero, abs_zero, zero_div, sub_zero, abs_nonpos_iff] at herror
    rw [herror, hzero]
  · refine cmp_eq_of_abs_lt ?_
    have hpos := abs_pos.mpr hne
    rw [sub_zero]
    linarith

/-- A fraction with small parts whose double is near a whole number is that number. -/
theorem Lowest.value_of_near (hq : q.Lowest) (hn : q.num.natAbs < 2 ^ 50)
    (hd : q.den ≤ 5 * 10 ^ 11) (h : |q.approximation - n| < tolerance) : q.value = n := by
  by_contra hne
  have hden : (0 : ℚ) < q.den := Int.cast_pos.mpr hq.den_pos
  have hapart := hq.one_le_mul_abs 1 (n := n) (by rwa [Int.cast_one, one_mul])
  have herror := hq.den_mul_error
  have hn' : (q.num.natAbs : ℚ) < 2 ^ 50 := by exact_mod_cast hn
  have hd' : (q.den : ℚ) ≤ 5 * 10 ^ 11 := by exact_mod_cast hd
  have htolerance : q.den * |q.approximation - n| < 1 / 2 :=
    calc q.den * |q.approximation - n| < q.den * tolerance := mul_lt_mul_of_pos_left h hden
      _ ≤ 5 * 10 ^ 11 * tolerance := mul_le_mul_of_nonneg_right hd' tolerance_pos.le
      _ < 1 / 2 := by linarith [tolerance_lt]
  have htriangle : q.den * |q.value - n| ≤
      q.den * |q.approximation - q.value| + q.den * |q.approximation - n| := by
    rw [← mul_add]
    refine mul_le_mul_of_nonneg_left ?_ hden.le
    rw [abs_sub_comm q.approximation q.value]
    exact abs_sub_le _ _ _
  rw [Int.cast_one, one_mul] at hapart
  linarith

end Fraction

namespace Numeric.RationalFunction

variable {f : RationalFunction} {qs : List Fraction} {x y v : ℚ} {n : ℤ}

/-- With a number of arguments that the function accepts there is a value. -/
theorem exists_gives {qs : List ℚ} (h : f.Accepts qs.length) : ∃ v, f.Gives qs v := by
  have hunary {v : ℚ → ℚ} (hone : qs.length = 1) (hgives : ∀ q, f.Gives [q] (v q)) :
      ∃ v, f.Gives qs v := by
    obtain ⟨q, rfl⟩ := List.length_eq_one_iff.mp hone
    exact ⟨_, hgives q⟩
  cases f with
  | abs => exact hunary h .abs
  | sign => exact hunary h .sign
  | floor => exact hunary h .floor
  | ceiling => exact hunary h .ceiling
  | round => exact hunary h .round
  | max =>
    have hne : qs.toFinset.Nonempty :=
      (List.toFinset_nonempty_iff qs).mpr (List.length_pos_iff.mp h)
    obtain ⟨v, hv, hle⟩ := qs.toFinset.exists_max_image id hne
    exact ⟨v, .max (List.mem_toFinset.mp hv) fun p hp => hle p (List.mem_toFinset.mpr hp)⟩
  | min =>
    have hne : qs.toFinset.Nonempty :=
      (List.toFinset_nonempty_iff qs).mpr (List.length_pos_iff.mp h)
    obtain ⟨v, hv, hle⟩ := qs.toFinset.exists_min_image id hne
    exact ⟨v, .min (List.mem_toFinset.mp hv) fun p hp => hle p (List.mem_toFinset.mpr hp)⟩

/-! ## Suitable arguments -/

/-- The parts of the fraction are small enough for the function. -/
def Suits : RationalFunction → Fraction → Prop
  | sign, _ => True
  | floor, q => q.num.natAbs < 2 ^ 50
  | ceiling, q => q.num.natAbs < 2 ^ 50
  | round, q => q.num.natAbs < 2 ^ 50
  | abs, q => q.num.natAbs < 2 ^ 50 ∧ q.den ≤ 5 * 10 ^ 11
  | max, q => q.num.natAbs < 2 ^ 50 ∧ q.den ≤ 5 * 10 ^ 11
  | min, q => q.num.natAbs < 2 ^ 50 ∧ q.den ≤ 5 * 10 ^ 11

/-- Between the same halves of whole numbers means between the same whole numbers. -/
private theorem cmp_of_halves (h : ∀ n : ℤ, cmp (2 * x) n = cmp (2 * y) n) (n : ℤ) :
    cmp x n = cmp y n := by
  have hmono : StrictMono fun t : ℚ => 2 * t := fun a b hab => mul_lt_mul_of_pos_left hab two_pos
  have hn := h (2 * n)
  rwa [Int.cast_mul, Int.cast_ofNat, hmono.cmp_map_eq, hmono.cmp_map_eq] at hn

/-- Numbers below the same whole numbers have the same whole number below them. -/
private theorem floor_congr (h : ∀ n : ℤ, x < n ↔ y < n) : ⌊x⌋ = ⌊y⌋ :=
  eq_of_forall_gt_iff fun n => by rw [Int.floor_lt, Int.floor_lt, h]

/-- Between the same halves of whole numbers, the whole numbers next to a number are the same. -/
private theorem whole_eq_of_halves (h : ∀ n : ℤ, cmp (2 * x) n = cmp (2 * y) n) :
    ⌊x⌋ = ⌊y⌋ ∧ ⌈x⌉ = ⌈y⌉ ∧ halfAway x = halfAway y := by
  have hbelow (n : ℤ) : 2 * x < n ↔ 2 * y < n := by
    rw [← cmp_eq_lt_iff, h, cmp_eq_lt_iff]
  have habove (n : ℤ) : n < 2 * x ↔ n < 2 * y := by
    rw [← cmp_eq_gt_iff, h, cmp_eq_gt_iff]
  have hlt (n : ℤ) : x < n ↔ y < n := by
    rw [← cmp_eq_lt_iff, cmp_of_halves h, cmp_eq_lt_iff]
  have hgt (n : ℤ) : n < x ↔ n < y := by
    rw [← cmp_eq_gt_iff, cmp_of_halves h, cmp_eq_gt_iff]
  have hup : ⌊x + 1 / 2⌋ = ⌊y + 1 / 2⌋ := by
    have hhalf (t : ℚ) (n : ℤ) : t + 1 / 2 < n ↔ 2 * t < (2 * n - 1 : ℤ) := by
      push_cast
      constructor <;> intro _ <;> linarith
    exact floor_congr fun n => by rw [hhalf, hhalf, hbelow]
  have hdown : ⌊1 / 2 - x⌋ = ⌊1 / 2 - y⌋ := by
    have hhalf (t : ℚ) (n : ℤ) : 1 / 2 - t < n ↔ (1 - 2 * n : ℤ) < 2 * t := by
      push_cast
      constructor <;> intro _ <;> linarith
    exact floor_congr fun n => by rw [hhalf, hhalf, habove]
  have hzero : x < 0 ↔ y < 0 := by
    have hn := hlt 0
    rwa [Int.cast_zero] at hn
  refine ⟨floor_congr hlt, eq_of_forall_lt_iff fun n => by rw [Int.lt_ceil, Int.lt_ceil, hgt], ?_⟩
  simp only [halfAway, hup, hdown, hzero]

/-- Only one whole number is near. -/
private theorem eq_of_near {z : ℤ} (h : Near z n) : z = n := by
  rw [← h.eq_halfAway, halfAway_intCast]

/-- Equal comparisons with zero mean equal signs. -/
private theorem sign_congr (h : cmp x 0 = cmp y 0) : SignType.sign x = SignType.sign y := by
  rcases lt_trichotomy y 0 with hy | rfl | hy
  · rw [sign_neg hy, sign_neg]
    rwa [← cmp_eq_lt_iff, h, cmp_eq_lt_iff]
  · rw [cmp_self_eq_eq, cmp_eq_eq_iff] at h
    rw [h]
  · rw [sign_pos hy, sign_pos]
    rwa [← cmp_eq_gt_iff, h, cmp_eq_gt_iff]

/-- The best of several doubles that is near a whole number belongs to the best fraction. -/
private theorem best_of_near {R : ℚ → ℚ → Prop}
    (hR : ∀ {a b c d : ℚ}, cmp a b = cmp c d → (R a b ↔ R c d))
    (hanti : ∀ {a b : ℚ}, R a b → R b a → a = b)
    (hqs : ∀ q ∈ qs, q.Lowest) (hsmall : ∀ q ∈ qs, q.num.natAbs < 2 ^ 50 ∧ q.den ≤ 5 * 10 ^ 11)
    (hy : y ∈ qs.map Fraction.approximation) (hbest : ∀ p ∈ qs.map Fraction.approximation, R p y)
    (hv : v ∈ qs.map Fraction.value) (hbest' : ∀ p ∈ qs.map Fraction.value, R p v)
    (hnear : Near y n) : v = n := by
  have hcmp {q : Fraction} (hq : q ∈ qs) : cmp q.approximation n = cmp q.value n :=
    cmp_of_halves ((hqs q hq).cmp_halves (hsmall q hq).1) n
  obtain ⟨q, hq, rfl⟩ := List.mem_map.mp hy
  obtain ⟨p, hp, rfl⟩ := List.mem_map.mp hv
  have hvalue : q.value = n :=
    (hqs q hq).value_of_near (hsmall q hq).1 (hsmall q hq).2 hnear.1
  have hexact : q.approximation = n := by
    rw [← cmp_eq_eq_iff, hcmp hq, cmp_eq_eq_iff, hvalue]
  refine hanti ((hR (hcmp hp)).mp ?_) ?_
  · rw [← hexact]
    exact hbest _ (List.mem_map_of_mem hp)
  · rw [← hvalue]
    exact hbest' _ (List.mem_map_of_mem hq)

/-- For these arguments the whole number near the value for the doubles is the true value. -/
theorem Suits.eq_of_near (hqs : ∀ q ∈ qs, q.Lowest) (hsuits : ∀ q ∈ qs, f.Suits q)
    (hy : f.Gives (qs.map Fraction.approximation) y) (hv : f.Gives (qs.map Fraction.value) v)
    (hnear : Near y n) : v = n := by
  have hunary {a : ℚ} (h : qs.map Fraction.approximation = [a]) :
      ∃ q : Fraction, q.Lowest ∧ f.Suits q ∧ q.approximation = a ∧ f.Gives [q.value] v := by
    obtain ⟨q, rfl, rfl⟩ := List.map_eq_singleton_iff.mp h
    exact ⟨q, hqs q List.mem_cons_self, hsuits q List.mem_cons_self, rfl, hv⟩
  generalize hxs : qs.map Fraction.approximation = xs at hy hunary
  cases hy with
  | abs a =>
    obtain ⟨q, hq, hsmall, rfl, hgives⟩ := hunary rfl
    cases hgives
    have hsign := hq.cmp_zero
    rcases le_or_gt 0 q.approximation with hnonneg | hneg
    · rw [abs_of_nonneg hnonneg] at hnear
      rw [← not_lt, ← cmp_eq_lt_iff, hsign, cmp_eq_lt_iff, not_lt] at hnonneg
      rw [abs_of_nonneg hnonneg, hq.value_of_near hsmall.1 hsmall.2 hnear.1]
    -- below zero the fraction itself is near the opposite number
    · have hopposite : |q.approximation - (-n : ℤ)| < tolerance := by
        have hflip : q.approximation - (-n : ℤ) = -(-q.approximation - n) := by
          push_cast
          ring
        rw [hflip, abs_neg, ← abs_of_neg hneg]
        exact hnear.1
      rw [← cmp_eq_lt_iff, hsign, cmp_eq_lt_iff] at hneg
      rw [abs_of_neg hneg, hq.value_of_near hsmall.1 hsmall.2 hopposite, Int.cast_neg, neg_neg]
  | sign a =>
    obtain ⟨q, hq, -, rfl, hgives⟩ := hunary rfl
    cases hgives
    -- a sign is a whole number, and near another one only if it is the same
    obtain ⟨z, hz⟩ : ∃ z : ℤ, ((SignType.sign q.approximation : SignType) : ℚ) = z := by
      cases SignType.sign q.approximation
      exacts [⟨0, by simp⟩, ⟨-1, by simp⟩, ⟨1, by simp⟩]
    rw [hz] at hnear
    rw [← sign_congr hq.cmp_zero, hz, eq_of_near hnear]
  | floor a =>
    obtain ⟨q, hq, hsmall, rfl, hgives⟩ := hunary rfl
    cases hgives
    rw [← (whole_eq_of_halves (hq.cmp_halves hsmall)).1, eq_of_near hnear]
  | ceiling a =>
    obtain ⟨q, hq, hsmall, rfl, hgives⟩ := hunary rfl
    cases hgives
    rw [← (whole_eq_of_halves (hq.cmp_halves hsmall)).2.1, eq_of_near hnear]
  | round a =>
    obtain ⟨q, hq, hsmall, rfl, hgives⟩ := hunary rfl
    cases hgives
    rw [← (whole_eq_of_halves (hq.cmp_halves hsmall)).2.2, eq_of_near hnear]
  | max hmem hle =>
    subst hxs
    cases hv with
    | max hmem' hle' =>
      refine best_of_near (R := (· ≤ ·)) (fun h => ?_) le_antisymm hqs hsuits hmem hle hmem' hle'
        hnear
      rw [← not_lt, ← not_lt, ← cmp_eq_gt_iff, h, cmp_eq_gt_iff]
  | min hmem hle =>
    subst hxs
    cases hv with
    | min hmem' hle' =>
      refine best_of_near (R := (· ≥ ·)) (fun h => ?_) (fun h h' => le_antisymm h' h) hqs hsuits
        hmem hle hmem' hle' hnear
      rw [ge_iff_le, ge_iff_le, ← not_lt, ← not_lt, ← cmp_eq_lt_iff, h, cmp_eq_lt_iff]

end Numeric.RationalFunction

namespace Expr

open Numeric (RationalFunction)

variable {f : RationalFunction} {name : String} {qs : List Fraction} {v : ℚ}

/-- Fractions are simple. -/
theorem simplifyAll_exact (qs : List Fraction) :
    simplifyAll false (qs.map .exact) = pure (qs.map .exact) := by
  induction qs with
  | nil => rfl
  | cons q qs ih =>
    rw [List.map_cons, simplifyAll, ih]
    rfl

/-- The values of fractions are their doubles. -/
theorem values?_exact (qs : List Fraction) :
    values? none (qs.map .exact) = some (qs.map Fraction.toFloat) := by
  induction qs with
  | nil => rfl
  | cons q qs ih =>
    rw [List.map_cons, values?, ih]
    rfl

theorem any_isReal_exact (qs : List Fraction) : (qs.map exact).any isReal = false := by
  induction qs with
  | nil => rfl
  | cons q qs ih =>
    rw [List.map_cons, List.any_cons, ih]
    rfl

/-- The call on fractions becomes the expression, without a warning. -/
def Folds (name : String) (qs : List Fraction) (e : Expr) : Prop := ∀ warnings : List String,
  (simplify false (.call name (qs.map .exact))).run.run warnings = (.ok e, warnings)

/-- The call on fractions stays as it is, or becomes a fraction with the value. -/
def FoldsTo (name : String) (qs : List Fraction) (v : ℚ) : Prop :=
  Folds name qs (.call name (qs.map .exact)) ∨
    ∃ q : Fraction, q.Normal ∧ q.value = v ∧ Folds name qs (.exact q)

/-- A call folds to one tree at most. -/
theorem Folds.unique {e e' : Expr} (h : Folds name qs e) (h' : Folds name qs e') : e = e' := by
  have hsame := (h []).symm.trans (h' [])
  injection hsame with hsame
  injection hsame

/-- A call with a finite value is folded to the whole number near it. -/
theorem folds_of_call {x : Float} (hcall : Numeric.call name (qs.map Fraction.toFloat) = .ok x)
    (hfinite : x.isFinite = true) :
    Folds name qs (((nearWhole? x).map ofInt).getD (.call name (qs.map .exact))) := by
  intro warnings
  have hsimplify : simplify false (.call name (qs.map .exact)) =
      foldCall name (qs.map .exact) := by
    rw [simplify, simplifyAll_exact]
    rfl
  rw [hsimplify]
  unfold foldCall
  rw [values?_exact]
  dsimp only
  rw [hcall]
  dsimp only
  rw [if_pos hfinite, any_isReal_exact]
  cases nearWhole? x <;> rfl

/-- A call of a function of fractions becomes the whole number near the value for the doubles, or
stays as it is where there is none. So it is true exactly if that number is the true value, as it is
for suitable arguments. -/
theorem simplify_call (hname : name.toLower = f.name) (hqs : ∀ q ∈ qs, q.Normal)
    (hlength : f.Accepts qs.length) :
    ∃ y v, f.Gives (qs.map Fraction.approximation) y ∧ f.Gives (qs.map Fraction.value) v ∧
      (∀ n, Near y n → Folds name qs (ofInt n)) ∧
      ((∀ n, ¬ Near y n) → Folds name qs (.call name (qs.map .exact))) ∧
      (FoldsTo name qs v ↔ ∀ n, Near y n → v = n) ∧
      ((∀ q ∈ qs, f.Suits q) → FoldsTo name qs v) := by
  have hdoubles : Numeric.RepresentsAll 374 (qs.map Fraction.toFloat)
      (qs.map Fraction.approximation) := by
    rw [Numeric.RepresentsAll, List.forall₂_map_left_iff, List.forall₂_map_right_iff,
      List.forall₂_same]
    exact fun q hq => (hqs q hq).represents_toFloat
  obtain ⟨x, y, hcall, hx, hy⟩ := Numeric.exists_call hname hdoubles (by rwa [List.length_map])
  obtain ⟨v, hv⟩ : ∃ v, f.Gives (qs.map Fraction.value) v :=
    RationalFunction.exists_gives (by rwa [List.length_map])
  have hfolds := folds_of_call hcall hx.isFinite
  have hnear (n : ℤ) (hn : Near y n) : Folds name qs (ofInt n) := by
    rwa [(nearWhole?_eq_some_iff hx (by decide)).mpr hn] at hfolds
  have hkept (hnone : ∀ n, ¬ Near y n) : Folds name qs (.call name (qs.map .exact)) := by
    have hnear : nearWhole? x = none := Option.eq_none_iff_forall_ne_some.mpr fun n hn =>
      hnone n ((nearWhole?_eq_some_iff hx (by decide)).mp hn)
    rwa [hnear] at hfolds
  have htrue : FoldsTo name qs v ↔ ∀ n, Near y n → v = n := by
    constructor
    · rintro (hcall | ⟨q, -, rfl, hq⟩) n hn
      · cases hcall.unique (hnear n hn)
      · cases hq.unique (hnear n hn)
        exact Fraction.value_ofInt n
    · intro hall
      by_cases hnone : ∀ n, ¬ Near y n
      · exact .inl (hkept hnone)
      · push Not at hnone
        obtain ⟨n, hn⟩ := hnone
        refine .inr ⟨.ofInt n, Fraction.normal_ofInt ?_, ?_, hnear n hn⟩
        · have hbound := abs_lt.mp hn.2
          unfold Fraction.least Fraction.greatest
          omega
        · rw [hall n hn, Fraction.value_ofInt]
  refine ⟨y, v, hy, hv, hnear, hkept, htrue, fun hsuits => htrue.mpr fun n hn => ?_⟩
  exact RationalFunction.Suits.eq_of_near (fun q hq => (hqs q hq).lowest) hsuits hy hv hn

theorem simplify_call_half :
    "rOUND".toLower = RationalFunction.round.name ∧ Fraction.Normal ⟨-5, 2⟩ ∧
      RationalFunction.round.Accepts [Fraction.mk (-5) 2].length ∧
      FoldsTo "rOUND" [⟨-5, 2⟩] (-3) := by
  have hname : "rOUND".toLower = RationalFunction.round.name := by decide +kernel
  have hnormal : Fraction.Normal ⟨-5, 2⟩ := ⟨by decide, by decide, by decide⟩
  have hnormals : ∀ q ∈ [Fraction.mk (-5) 2], q.Normal :=
    fun q hq => List.mem_singleton.mp hq ▸ hnormal
  obtain ⟨y, v, -, hv, -, -, -, hsuits⟩ := simplify_call hname hnormals rfl
  have hvalue : v = -3 := by
    rw [hv.unique (.round _)]
    norm_num [halfAway, Fraction.value]
  refine ⟨hname, hnormal, rfl, hvalue ▸ hsuits fun q hq => ?_⟩
  obtain rfl := List.mem_singleton.mp hq
  change Int.natAbs (-5) < 2 ^ 50
  decide

/-- A fraction below the tolerance is taken for zero, and one whose double is a whole number for
that number. -/
theorem calls_miss_fractions :
    (Fraction.Normal ⟨1, 10000000000000⟩ ∧ Folds "Abs" [⟨1, 10000000000000⟩] (ofInt 0) ∧
      ¬ FoldsTo "Abs" [⟨1, 10000000000000⟩] |Fraction.value ⟨1, 10000000000000⟩|) ∧
    Fraction.Normal ⟨9223372036854775806, 9223372036854775807⟩ ∧
      Folds "Floor" [⟨9223372036854775806, 9223372036854775807⟩] (ofInt 1) ∧
      ¬ FoldsTo "Floor" [⟨9223372036854775806, 9223372036854775807⟩]
        ⌊Fraction.value ⟨9223372036854775806, 9223372036854775807⟩⌋ := by
  have hmisses {name : String} {qs : List Fraction} {n : ℤ} {v : ℚ}
      (hfolds : Folds name qs (ofInt n)) (hne : (n : ℚ) ≠ v) : ¬ FoldsTo name qs v := by
    rintro (hcall | ⟨q, -, rfl, hq⟩)
    · cases hcall.unique hfolds
    · cases hq.unique hfolds
      exact hne (Fraction.value_ofInt n).symm
  have hone {name : String} {q : Fraction} {x : Float} {n : ℤ}
      (hcall : Numeric.call name [q.toFloat] = .ok x) (hfinite : x.isFinite = true)
      (hnear : nearWhole? x = some n) : Folds name [q] (ofInt n) := by
    have hfolds : Folds name [q] (((nearWhole? x).map ofInt).getD _) := folds_of_call hcall hfinite
    rwa [hnear] at hfolds
  have habs : Folds "Abs" [⟨1, 10000000000000⟩] (ofInt 0) := by
    have hname : "Abs".toLower = "abs" := by decide +kernel
    have hcall : Numeric.call "Abs" [Fraction.toFloat ⟨1, 10000000000000⟩] =
        .ok (Float.abs (Fraction.toFloat ⟨1, 10000000000000⟩)) := by
      rw [Numeric.call, hname]
      rfl
    exact hone hcall (by decide +kernel) (by decide +kernel)
  have hfloor : Folds "Floor" [⟨9223372036854775806, 9223372036854775807⟩] (ofInt 1) := by
    have hname : "Floor".toLower = "floor" := by decide +kernel
    have hcall : Numeric.call "Floor"
        [Fraction.toFloat ⟨9223372036854775806, 9223372036854775807⟩] =
        .ok (floor (Fraction.toFloat ⟨9223372036854775806, 9223372036854775807⟩)) := by
      rw [Numeric.call, hname]
      rfl
    exact hone hcall (by decide +kernel) (by decide +kernel)
  have hzero : ⌊Fraction.value ⟨9223372036854775806, 9223372036854775807⟩⌋ = 0 := by
    norm_num [Fraction.value, Int.floor_eq_iff]
  refine ⟨⟨⟨by decide, by decide, by decide⟩, habs, hmisses habs ?_⟩,
    ⟨by decide, by decide, by decide⟩, hfloor, hmisses hfloor ?_⟩
  · norm_num [Fraction.value]
  · rw [hzero]
    norm_num

end Expr

end Reckoner
