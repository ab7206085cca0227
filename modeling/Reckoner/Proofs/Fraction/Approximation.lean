import Mathlib.Algebra.Order.Field.Basic
import Reckoner.Proofs.Decimal.Differences
import Reckoner.Proofs.Fraction.Calculation

/-!
# Fractions as doubles

The double of a whole number of 64 bits is the number rounded, and the double of a fraction is the
rounded quotient of its rounded parts. The three errors together are less than a `2 ^ 51`-th of the
value, so fractions that are further apart are still apart, and in the same order, as doubles.
-/

namespace Reckoner

open Float.Model (UnpackedFloat Format)
open Rounding

variable {k n : ℕ} {z : ℤ} {x y p q : ℚ}

/-! ## Whole numbers -/

/-- A number of at most fifty-three bits is kept. -/
private theorem represents_toUInt64 (hn : n < 2 ^ 53) :
    Represents 53 (unpacked n.toUInt64.toFloat) n := by
  have hword : n.toUInt64.toNat = n := Nat.mod_eq_of_lt (by omega)
  have hnormalized : Represents 53
      (UnpackedFloat.normalize Format.binary64 (n.toUInt64.toNat : ℕ) 0 .positive)
      (nearest ((n : ℤ) * 2 ^ (0 : ℤ))) := by
    rw [hword]
    refine represents_normalized (k := 52) (fun hne => ?_) (by omega)
    have hlog : n.log2 < 53 := (Nat.log2_lt (by omega)).mpr hn
    rw [Int.natAbs_natCast]
    omega
  rw [zpow_zero, mul_one, nearest_intCast (by omega), Int.cast_natCast] at hnormalized
  exact hnormalized.ofModel (by omega)

private theorem represents_one :
    Represents 52 (unpacked (Float.exactlyRepresentablePowersOfTen[0])) 1 := by
  have hparts : unpacked (Float.exactlyRepresentablePowersOfTen[0]) =
      .finite .positive (2 ^ 52) (-52) (Nat.two_pow_pos 52) := rfl
  have hvalue : (1 : ℚ) = signed .positive ((2 ^ 52 : ℕ) * 2 ^ (-52 : ℤ)) := by
    norm_num [signed]
  rw [hparts, hvalue]
  exact .finite _ _ (Nat.le_refl _) (by omega) (by omega)

/-- A greater number is rounded from its bits with fifty-three zeros behind them. -/
private theorem represents_ofScientific (hlo : 2 ^ 53 ≤ n) (hhi : n ≤ 2 ^ 63) :
    Represents 160 (UnpackedFloat.ofScientific Format.binary64 n 0) (nearest n) := by
  have hbits : 2 ^ 106 ≤ n <<< 53 * 10 ^ 0 ∧ n <<< 53 * 10 ^ 0 < 2 ^ 117 := by
    rw [pow_zero, mul_one, Nat.shiftLeft_eq]
    omega
  have hlog : 106 ≤ (n <<< 53 * 10 ^ 0).log2 ∧ (n <<< 53 * 10 ^ 0).log2 < 117 :=
    ⟨(Nat.le_log2 (by omega)).mpr hbits.1, (Nat.log2_lt (by omega)).mpr hbits.2⟩
  have hvalue : ((n <<< 53 * 10 ^ 0 : ℕ) * 2 ^ ((-53 : ℤ) + 0) : ℚ) = n := by
    rw [pow_zero, mul_one, add_zero, zpow_neg, Nat.shiftLeft_eq, Nat.cast_mul, Nat.cast_pow,
      Nat.cast_ofNat]
    exact mul_inv_cancel_right₀ (by positivity) _
  have hround : Represents 160 _ (signed .positive
      (nearest ((n <<< 53 * 10 ^ 0 : ℕ) * 2 ^ ((-53 : ℤ) + 0)))) :=
    represents_round (by omega) (hasValue_exact _) (k := 159) (by omega) (by omega)
  rw [hvalue] at hround
  have hsmall : ¬ (0 : ℤ) < -(2 ^ 11 + n.log2) := by omega
  unfold UnpackedFloat.ofScientific
  rw [dif_neg (by omega), if_neg (by decide), if_neg hsmall, if_pos (by decide)]
  exact hround

/-- The double of a natural number of 64 bits is the number rounded. -/
theorem represents_ofNat (hn : n ≤ 2 ^ 63) :
    Represents 160 (unpacked (Float.ofNat n)) (nearest n) := by
  change Represents 160 (unpacked (Float.ofScientific n false 0)) (nearest n)
  unfold Float.ofScientific
  split
  · rename_i h
    -- the number is converted exactly and multiplied by one
    have hproduct := ((represents_toUInt64 h.1).mul represents_one (by omega)).ofModel (by omega)
    rw [mul_one] at hproduct
    exact hproduct.mono (by omega)
  · rename_i h
    exact (represents_ofScientific (by omega) hn).ofModel (by omega)

/-- The double of a whole number of 64 bits is the number rounded. -/
theorem represents_ofInt (hz : z.natAbs ≤ 2 ^ 63) :
    Represents 160 (unpacked (Float.ofInt z)) (nearest z) := by
  cases z with
  | ofNat n => exact represents_ofNat hz
  | negSucc n =>
    have hneg := ((represents_ofNat (n := n + 1) hz).neg).ofModel (by omega)
    rw [← nearest_neg] at hneg
    rw [Int.cast_negSucc]
    exact hneg

/-! ## Fractions -/

namespace Fraction

variable {a b : Fraction}

/-- The value of the double of a fraction: the parts are rounded, and so is their quotient. -/
def approximation (q : Fraction) : ℚ := nearest (nearest q.num / nearest q.den)

/-- The double of a fraction has the approximate value. -/
theorem Normal.represents_toFloat (ha : a.Normal) :
    Represents 374 (unpacked a.toFloat) a.approximation := by
  have hnum := ha.num_range
  have hden := ha.den_range
  unfold least greatest at hnum
  unfold greatest at hden
  have hrounded : nearest a.den ≠ 0 := nearest_ne_zero ha.lowest.den_ne_zero
  exact ((represents_ofInt (by omega)).div (represents_ofInt (by omega)) hrounded
    (by omega)).ofModel (by omega)

/-- The double of a whole number up to `2 ^ 53` is exact. -/
theorem approximation_ofInt (hz : z.natAbs ≤ 2 ^ 53) :
    (ofInt z).approximation = (ofInt z).value := by
  have hone : nearest (1 : ℤ) = (1 : ℤ) := nearest_intCast (by decide)
  have hquotient : (ofInt z).approximation = nearest (nearest z / nearest (1 : ℤ)) := rfl
  rw [hquotient, hone, nearest_intCast hz, Int.cast_one, div_one, nearest_intCast hz, value_ofInt]

/-- The value of the double is less than a `2 ^ 51`-th of the value away. -/
theorem approximation_error (ha : a.Lowest) : |a.approximation - a.value| ≤ |a.value| / 2 ^ 51 := by
  obtain ⟨δ, hδ, hnum⟩ := exists_nearest_eq a.num
  obtain ⟨ε, hε, hden⟩ := exists_nearest_eq a.den
  obtain ⟨η, hη, hquotient⟩ := exists_nearest_eq (nearest a.num / nearest a.den)
  rw [abs_le] at hδ hε hη
  have hd : (a.den : ℚ) ≠ 0 := ha.den_ne_zero
  have hpos : 0 < 1 + ε := by linarith
  have hfactor : a.approximation - a.value =
      a.value * (((1 + δ) * (1 + η) - (1 + ε)) / (1 + ε)) := by
    rw [approximation, hquotient, hnum, hden, value]
    field_simp
  have hlo : -(1 / 2 ^ 51) * (1 + ε) ≤ (1 + δ) * (1 + η) - (1 + ε) := by
    nlinarith
  have hhi : (1 + δ) * (1 + η) - (1 + ε) ≤ 1 / 2 ^ 51 * (1 + ε) := by
    nlinarith
  have hbound : |((1 + δ) * (1 + η) - (1 + ε)) / (1 + ε)| ≤ 1 / 2 ^ 51 :=
    abs_le.mpr ⟨(le_div_iff₀ hpos).mpr hlo, (div_le_iff₀ hpos).mpr hhi⟩
  rw [hfactor, abs_mul, div_eq_mul_one_div |a.value|]
  exact mul_le_mul_of_nonneg_left hbound (abs_nonneg _)

/-- Numbers that are further apart than their errors keep their order. -/
theorem cmp_eq_of_errors (hx : |x - p| ≤ |p| / 2 ^ 51) (hy : |y - q| ≤ |q| / 2 ^ 51)
    (hapart : |p| + |q| < 2 ^ 51 * |p - q|) : cmp x y = cmp p q := by
  rw [abs_le] at hx hy
  rcases lt_trichotomy p q with h | rfl | h
  · rw [abs_sub_comm, abs_of_pos (sub_pos.mpr h)] at hapart
    rw [(cmp_eq_lt_iff _ _).mpr h, cmp_eq_lt_iff]
    linarith
  · rw [sub_self, abs_zero, mul_zero] at hapart
    exact absurd hapart (not_lt.mpr (by positivity))
  · rw [abs_of_pos (sub_pos.mpr h)] at hapart
    rw [(cmp_eq_gt_iff _ _).mpr h, cmp_eq_gt_iff]
    linarith

end Fraction

end Reckoner
