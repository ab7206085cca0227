import Reckoner.Proofs.Decimal.Values

/-!
# Differences of doubles

A double with fifty-three bits is the nearest one to its value. A difference is computed exactly
with the smaller of the two exponents and then rounded, so it is exact wherever fifty-three bits
suffice for it.
-/

namespace Reckoner

open Float.Model (UnpackedFloat Format totalExponent)
open Float.Model.UnpackedFloat (Sign Accuracy)
open Rounding

variable {k l n : ℕ} {d e : ℤ} {u v : UnpackedFloat} {x y : ℚ} {s t : Sign}

/-- A whole number gets its sign among the integers as it does among the rationals. -/
theorem signed_natCast (s : Sign) (n : ℕ) : signed s (n : ℚ) = (s.apply (n : ℤ) : ℤ) := by
  cases s with
  | positive => rfl
  | negative => exact (Int.cast_neg _).symm

/-- A sign goes to the first factor. -/
theorem signed_mul_right (s : Sign) (x y : ℚ) : signed s (x * y) = signed s x * y := by
  cases s with
  | positive => rfl
  | negative => exact (neg_mul x y).symm

/-- A sign does not change the magnitude. -/
theorem natAbs_apply (s : Sign) (n : ℕ) : (s.apply (n : ℤ)).natAbs = n := by
  cases s with
  | positive => rfl
  | negative => exact Int.natAbs_neg _

/-- A magnitude is what is left without the sign. -/
theorem abs_signed (s : Sign) (hx : 0 ≤ x) : |signed s x| = x := by
  cases s with
  | positive => exact abs_of_nonneg hx
  | negative => exact (abs_neg x).trans (abs_of_nonneg hx)

/-- The double without its sign. -/
theorem Represents.abs (h : Represents k u x) : Represents k u.abs |x| := by
  cases h with
  | zero s =>
    rw [abs_zero]
    exact .zero _
  | @finite s m e hm hlo hhi he =>
    rw [abs_signed s (mul_nonneg m.cast_nonneg (zpow_nonneg (by norm_num) e))]
    exact .finite .positive hm hlo hhi he

/-- The value needs no rounding. -/
theorem Represents.nearest_eq (h : Represents k u x) : nearest x = x := by
  cases h with
  | zero s => exact nearest_zero
  | @finite s m e hm hlo hhi he =>
    rw [signed_mul_right, signed_natCast]
    refine nearest_eq_self ?_
    rw [Int.abs_eq_natAbs, natAbs_apply]
    exact_mod_cast hhi

/-- The value is less than the power of two behind its first bit. -/
theorem Represents.abs_lt (h : Represents k u x) : |x| < 2 ^ (53 + k) := by
  cases h with
  | zero s =>
    rw [abs_zero]
    positivity
  | @finite s m e hm hlo hhi he =>
    have hm' : (m : ℚ) < 2 ^ 53 := by exact_mod_cast hhi
    have hpos : (0 : ℚ) < 2 ^ e := zpow_pos (by norm_num) e
    have he' : (2 : ℚ) ^ e ≤ 2 ^ (k : ℤ) := zpow_le_zpow_right₀ (by norm_num) (by omega)
    rw [abs_signed s (mul_nonneg m.cast_nonneg hpos.le), pow_add, ← zpow_natCast 2 k]
    calc (m : ℚ) * 2 ^ e < 2 ^ 53 * 2 ^ e := mul_lt_mul_of_pos_right hm' hpos
      _ ≤ 2 ^ 53 * 2 ^ (k : ℤ) := mul_le_mul_of_nonneg_left he' (by positivity)

/-! ## Rounding -/

/-- Zeros are put behind a number until it has fifty-three bits. -/
theorem represents_rounded (hn : n ≠ 0) (he : ((n.log2 : ℤ) + e - 52).natAbs ≤ k) (hk : k ≤ 970) :
    Represents (k + 1) (UnpackedFloat.round Format.binary64 s n e)
      (signed s (nearest (n * 2 ^ e))) := by
  have htarget : Format.binary64.targetExponent (totalExponent n e) = n.log2 + e - 52 := by
    have hbits : (Format.binary64.mantissaBits : ℤ) = 53 := rfl
    have hmin : Format.binary64.minExponent = -1074 := rfl
    rw [Format.targetExponent, totalExponent, hbits, hmin]
    omega
  have hshift : (e - (n.log2 + e - 52)).toNat = 52 - n.log2 := by omega
  have hle : 2 ^ (n.log2 + (52 - n.log2)) ≤ n <<< (52 - n.log2) := by
    rw [pow_add, Nat.shiftLeft_eq]
    exact Nat.mul_le_mul_right _ (Nat.log2_self_le hn)
  have hlt : n <<< (52 - n.log2) < 2 ^ (n.log2 + (52 - n.log2) + 1) := by
    rw [Nat.add_right_comm, pow_add, Nat.shiftLeft_eq]
    exact Nat.mul_lt_mul_of_pos_right Nat.lt_log2_self (Nat.two_pow_pos _)
  have hlog : (n <<< (52 - n.log2)).log2 = n.log2 + (52 - n.log2) :=
    (Nat.log2_eq_iff ((Nat.two_pow_pos _).trans_le hle).ne').mpr ⟨hle, hlt⟩
  have hbits : 2 ^ 52 ≤ n <<< (52 - n.log2) :=
    (Nat.pow_le_pow_right Nat.two_pos (by omega)).trans hle
  have hvalue : ((n <<< (52 - n.log2) : ℕ) * 2 ^ (e - (52 - n.log2 : ℕ)) : ℚ) = n * 2 ^ e := by
    rw [Nat.shiftLeft_eq, zpow_sub₀ (by norm_num), zpow_natCast]
    push_cast
    field_simp
  rw [← hvalue]
  unfold UnpackedFloat.round UnpackedFloat.decreaseExponent
  rw [htarget]
  dsimp only
  rw [hshift]
  exact represents_round hbits (hasValue_exact _) (by omega) hk

/-- A whole number with a power of two is rounded, whatever its sign. -/
theorem represents_normalized {z : ℤ}
    (he : z ≠ 0 → ((z.natAbs.log2 : ℤ) + e - 52).natAbs ≤ k) (hk : k ≤ 970) :
    Represents (k + 1) (UnpackedFloat.normalize Format.binary64 z e .positive)
      (nearest (z * 2 ^ e)) := by
  unfold UnpackedFloat.normalize
  rcases lt_trichotomy z 0 with hz | rfl | hz
  · obtain ⟨n, hn⟩ : ∃ n : ℕ, z = -n := ⟨(-z).toNat, by omega⟩
    have hnat : (-z).toNat = n ∧ z.natAbs = n := by omega
    have hvalue : nearest (z * 2 ^ e) = signed .negative (nearest (n * 2 ^ e)) := by
      rw [hn, signed, ← nearest_neg]
      push_cast
      rw [neg_mul]
    rw [Int.compare_eq_lt.mpr hz, hvalue]
    dsimp only
    rw [hnat.1]
    exact represents_rounded (by omega) (hnat.2 ▸ he hz.ne) hk
  · rw [Int.compare_eq_eq.mpr rfl, Int.cast_zero, zero_mul, nearest_zero]
    exact .zero _
  · obtain ⟨n, rfl⟩ := Int.eq_ofNat_of_zero_le hz.le
    rw [Int.compare_eq_gt.mpr hz]
    exact represents_rounded (by omega) (he hz.ne') hk

/-! ## Differences -/

/-- With the smaller exponent a mantissa gets as many zeros as its exponent was greater. -/
private theorem apply_shifted (s : Sign) (n : ℕ) (h : d ≤ e) :
    ((s.apply ((UnpackedFloat.decreaseExponent n e d).1 : ℤ) : ℤ) : ℚ) * 2 ^ d =
      signed s (n * 2 ^ e) := by
  obtain ⟨j, hj⟩ := Int.le.dest h
  have hshift : (e - d).toNat = j := by omega
  have hmantissa : (UnpackedFloat.decreaseExponent n e d).1 = n * 2 ^ j := by
    rw [← hshift, ← Nat.shiftLeft_eq]
    rfl
  rw [hmantissa, ← signed_natCast, ← signed_mul_right, ← hj, zpow_add₀ (by norm_num), zpow_natCast]
  congr 1
  push_cast
  ring

/-- The first bit of a number below a power of two. -/
private theorem log2_lt {z : ℤ} (hz : z ≠ 0) (h : |(z : ℚ) * 2 ^ d| < 2 ^ e) :
    (z.natAbs.log2 : ℤ) + d < e := by
  have hlog : (2 : ℚ) ^ (z.natAbs.log2 : ℤ) ≤ |(z : ℚ)| := by
    rw [zpow_natCast, ← Int.cast_abs, Int.abs_eq_natAbs, Int.cast_natCast]
    exact_mod_cast Nat.log2_self_le (Int.natAbs_ne_zero.mpr hz)
  have hpos : (0 : ℚ) < 2 ^ d := zpow_pos (by norm_num) d
  refine (zpow_lt_zpow_iff_right₀ (by norm_num : (1 : ℚ) < 2)).mp ?_
  calc (2 : ℚ) ^ ((z.natAbs.log2 : ℤ) + d) = 2 ^ (z.natAbs.log2 : ℤ) * 2 ^ d :=
        zpow_add₀ (by norm_num) _ _
    _ ≤ |(z : ℚ)| * 2 ^ d := mul_le_mul_of_nonneg_right hlog hpos.le
    _ = |(z : ℚ) * 2 ^ d| := by rw [abs_mul, abs_of_pos hpos]
    _ < 2 ^ e := h

/-- Differences are rounded. -/
theorem Represents.sub (hu : Represents k u x) (hv : Represents l v y) (hkl : k + l ≤ 900) :
    Represents (k + l + 54) (UnpackedFloat.sub Format.binary64 u v) (nearest (x - y)) := by
  have hxlt := hu.abs_lt
  have hylt := hv.abs_lt
  have hx := hu.nearest_eq
  have hy := hv.neg.nearest_eq
  cases hu with
  | zero s =>
    rw [zero_sub, hy]
    cases hv with
    | zero t =>
      rw [neg_zero]
      cases s <;> cases t <;> exact .zero _
    | @finite t n e hn hnlo hnhi he =>
      exact (Represents.finite t hn hnlo hnhi he).neg.mono (by omega)
  | @finite s m d hm hmlo hmhi hd =>
    cases hv with
    | zero t =>
      rw [sub_zero, hx]
      exact .finite s hm hmlo hmhi (by omega)
    | @finite t n e hn hnlo hnhi he =>
      -- both mantissas are brought to the smaller exponent
      have hm' := apply_shifted s m (min_le_left d e)
      have hn' := apply_shifted t n (min_le_right d e)
      rw [← hm', ← hn', ← sub_mul, ← Int.cast_sub]
      rw [← hm'] at hxlt
      rw [← hn'] at hylt
      change Represents _ (UnpackedFloat.normalize Format.binary64
        (s.apply ((UnpackedFloat.decreaseExponent m d (min d e)).1 : ℤ) -
          t.apply ((UnpackedFloat.decreaseExponent n e (min d e)).1 : ℤ)) (min d e) .positive) _
      generalize s.apply ((UnpackedFloat.decreaseExponent m d (min d e)).1 : ℤ) = i at hxlt ⊢
      generalize t.apply ((UnpackedFloat.decreaseExponent n e (min d e)).1 : ℤ) = j at hylt ⊢
      refine represents_normalized (k := k + l + 53) (fun hne => ?_) (by omega)
      have hbound : |((i - j : ℤ) : ℚ) * 2 ^ min d e| < 2 ^ ((54 + k + l : ℕ) : ℤ) := by
        have hk : (2 : ℚ) ^ (53 + k) ≤ 2 ^ (53 + k + l) :=
          pow_le_pow_right₀ (by norm_num) (by omega)
        have hl : (2 : ℚ) ^ (53 + l) ≤ 2 ^ (53 + k + l) :=
          pow_le_pow_right₀ (by norm_num) (by omega)
        have hdouble : (2 : ℚ) ^ (54 + k + l) = 2 * 2 ^ (53 + k + l) := by
          rw [← pow_succ']
          congr 1
          omega
        have htriangle := abs_sub ((i : ℚ) * 2 ^ min d e) (j * 2 ^ min d e)
        rw [zpow_natCast, hdouble, Int.cast_sub, sub_mul]
        linarith
      have hlog := log2_lt hne hbound
      omega

end Reckoner
