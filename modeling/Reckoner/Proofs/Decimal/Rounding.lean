import Mathlib.Algebra.Order.Round
import Mathlib.Data.Int.Log
import Mathlib.Data.Rat.Floor
import Mathlib.Tactic.Linarith
import Mathlib.Tactic.Ring

/-!
# Rounding to fifty-three bits

A number is rounded to the nearest multiple of its unit, the power of two of which it has at
least `2 ^ 52` and less than `2 ^ 53`, and from the middle to the even multiple. The exponent may
be any whole number. The error is at most half a unit, so at most a `2 ^ 53`-th of the number, and
what fifty-three bits suffice for is kept.
-/

namespace Reckoner.Rounding

variable {x : ℚ} {j e : ℤ} {δ : ℚ}

/-- The nearest whole number, and from the middle the even one. -/
def toEven (x : ℚ) : ℤ :=
  if Int.fract x < 1 / 2 then ⌊x⌋
  else if Int.fract x = 1 / 2 then ⌊x⌋ + ⌊x⌋ % 2
  else ⌊x⌋ + 1

/-- The place of the last of fifty-three bits. -/
def unit (x : ℚ) : ℚ := 2 ^ (Int.log 2 |x| - 52)

/-- The nearest multiple of the unit, and from the middle the even one. -/
def nearest (x : ℚ) : ℚ := toEven (x / unit x) * unit x

/-! ## Whole numbers -/

/-- A whole number and a part of one. -/
theorem toEven_add (j : ℤ) (h0 : 0 ≤ δ) (h1 : δ < 1) :
    toEven (j + δ) = if δ < 1 / 2 then j else if δ = 1 / 2 then j + j % 2 else j + 1 := by
  have hfloor : ⌊(j : ℚ) + δ⌋ = j := by
    rw [Int.floor_eq_iff]
    constructor <;> linarith
  have hfract : Int.fract ((j : ℚ) + δ) = δ := by
    rw [Int.fract, hfloor]
    ring
  rw [toEven, hfloor, hfract]

/-- An integer is rounded to itself. -/
theorem toEven_intCast (j : ℤ) : toEven j = j := by
  rw [toEven, Int.fract_intCast, Int.floor_intCast, if_pos (by norm_num)]

/-- No whole number is nearer. -/
theorem toEven_error (x : ℚ) : |toEven x - x| ≤ 1 / 2 := by
  have hx : (⌊x⌋ : ℚ) = x - Int.fract x := by rw [Int.self_sub_fract]
  have h0 := Int.fract_nonneg x
  have h1 := Int.fract_lt_one x
  have hparity : (0 : ℚ) ≤ (⌊x⌋ % 2 : ℤ) ∧ ((⌊x⌋ % 2 : ℤ) : ℚ) ≤ 1 := by
    constructor <;> norm_cast <;> omega
  rw [toEven, abs_le]
  split
  · constructor <;> linarith
  · split <;> push_cast at hparity ⊢ <;> constructor <;> linarith

/-- A number of fifty-three bits is rounded to one of fifty-three bits, or carries into another. -/
theorem toEven_mem (h0 : 2 ^ 52 ≤ x) (h1 : x < 2 ^ 53) :
    2 ^ 52 ≤ toEven x ∧ toEven x ≤ 2 ^ 53 := by
  have herror := abs_le.mp (toEven_error x)
  have hlo : ((2 ^ 52 : ℤ) : ℚ) < (toEven x + 1 : ℤ) := by
    push_cast
    linarith
  have hhi : ((toEven x : ℤ) : ℚ) < (2 ^ 53 + 1 : ℤ) := by
    push_cast
    linarith
  exact ⟨Int.lt_add_one_iff.mp (Int.cast_lt.mp hlo), Int.lt_add_one_iff.mp (Int.cast_lt.mp hhi)⟩

/-- Rounding is the same on both sides of zero. -/
theorem toEven_neg (x : ℚ) : toEven (-x) = -toEven x := by
  obtain ⟨j, δ, h0, h1, rfl⟩ : ∃ (j : ℤ) (δ : ℚ), 0 ≤ δ ∧ δ < 1 ∧ x = j + δ :=
    ⟨⌊x⌋, Int.fract x, Int.fract_nonneg x, Int.fract_lt_one x, (Int.floor_add_fract x).symm⟩
  rcases h0.eq_or_lt with rfl | hpos
  · rw [add_zero, ← Int.cast_neg, toEven_intCast, toEven_intCast]
  · have hneg : -((j : ℚ) + δ) = (-j - 1 : ℤ) + (1 - δ) := by
      push_cast
      ring
    rw [hneg, toEven_add _ (by linarith) (by linarith), toEven_add _ h0 h1]
    rcases lt_trichotomy δ (1 / 2) with h | rfl | h
    · rw [if_neg (by linarith), if_neg (by linarith), if_pos h]
      ring
    · norm_num
      omega
    · rw [if_pos (by linarith), if_neg (by linarith), if_neg (by linarith)]
      ring

/-! ## Units -/

theorem unit_pos (x : ℚ) : 0 < unit x := zpow_pos (by norm_num) _

/-- The unit of the last place does not depend on the sign. -/
theorem unit_neg (x : ℚ) : unit (-x) = unit x := by
  rw [unit, unit, abs_neg]

/-- A number has at least `2 ^ 52` units. -/
theorem unit_le (hx : x ≠ 0) : 2 ^ 52 * unit x ≤ |x| := by
  have hlog : (2 : ℚ) ^ Int.log 2 |x| ≤ |x| :=
    Int.zpow_log_le_self (by norm_num) (abs_pos.mpr hx)
  rwa [unit, ← zpow_natCast, ← zpow_add₀ (by norm_num), Nat.cast_ofNat, add_sub_cancel]

/-- The place of the first bit gives the unit. -/
theorem unit_eq (h0 : 2 ^ 52 ≤ x) (h1 : x < 2 ^ 53) (e : ℤ) : unit (x * 2 ^ e) = 2 ^ e := by
  have hpos : (0 : ℚ) < 2 ^ e := zpow_pos (by norm_num) e
  have hx : 0 < x * 2 ^ e := mul_pos (by linarith) hpos
  have hlog : Int.log 2 (x * 2 ^ e) = 52 + e := by
    have hlo : ((2 : ℕ) : ℚ) ^ (52 + e) ≤ x * 2 ^ e := by
      rw [Nat.cast_ofNat, zpow_add₀ (by norm_num)]
      exact mul_le_mul_of_nonneg_right h0 hpos.le
    have hhi : x * 2 ^ e < ((2 : ℕ) : ℚ) ^ (53 + e) := by
      rw [Nat.cast_ofNat, zpow_add₀ (by norm_num)]
      exact mul_lt_mul_of_pos_right h1 hpos
    have hle := (Int.zpow_le_iff_le_log (by norm_num) hx).mp hlo
    have hlt := (Int.lt_zpow_iff_log_lt (by norm_num) hx).mp hhi
    omega
  rw [unit, abs_of_pos hx, hlog, add_sub_cancel_left]

/-! ## Numbers -/

theorem nearest_zero : nearest 0 = 0 := by
  rw [nearest, zero_div, ← Int.cast_zero, toEven_intCast, Int.cast_zero, zero_mul]

/-- Rounding does not prefer a sign. -/
theorem nearest_neg (x : ℚ) : nearest (-x) = -nearest x := by
  rw [nearest, nearest, unit_neg, neg_div, toEven_neg, Int.cast_neg, neg_mul]

/-- The error is at most a `2 ^ 53`-th of the number. -/
theorem nearest_error (x : ℚ) : |nearest x - x| ≤ |x| / 2 ^ 53 := by
  rcases eq_or_ne x 0 with rfl | hx
  · rw [nearest_zero, sub_self, abs_zero, zero_div]
  · have hunit := unit_pos x
    have hscaled : nearest x - x = (toEven (x / unit x) - x / unit x) * unit x := by
      rw [nearest, sub_mul, div_mul_cancel₀ x hunit.ne']
    have herror := mul_le_mul_of_nonneg_right (toEven_error (x / unit x)) hunit.le
    have hle := unit_le hx
    rw [hscaled, abs_mul, abs_of_pos hunit]
    linarith

/-- Only zero is rounded to zero. -/
theorem nearest_ne_zero (hx : x ≠ 0) : nearest x ≠ 0 := by
  intro h
  have herror := nearest_error x
  have hpos := abs_pos.mpr hx
  rw [h, zero_sub, abs_neg] at herror
  linarith

/-- In units a number is rounded to a whole number. -/
theorem nearest_eq (h0 : 2 ^ 52 ≤ x) (h1 : x < 2 ^ 53) (e : ℤ) :
    nearest (x * 2 ^ e) = toEven x * 2 ^ e := by
  rw [nearest, unit_eq h0 h1, mul_div_cancel_right₀ _ (zpow_pos (by norm_num) e).ne']

/-- What fifty-three bits suffice for is kept. -/
theorem nearest_eq_self (hj : |j| < 2 ^ 53) : nearest (j * 2 ^ e) = j * 2 ^ e := by
  rcases eq_or_ne j 0 with rfl | hj0
  · rw [Int.cast_zero, zero_mul, nearest_zero]
  · have hpos : (0 : ℚ) < 2 ^ e := zpow_pos (by norm_num) e
    have hx : (j : ℚ) * 2 ^ e ≠ 0 := mul_ne_zero (Int.cast_ne_zero.mpr hj0) hpos.ne'
    obtain ⟨k, hk⟩ : ∃ k : ℕ, e = Int.log 2 |(j : ℚ) * 2 ^ e| - 52 + k := by
      have hlt : |(j : ℚ) * 2 ^ e| < 2 ^ (e + 53) := by
        have hcast : |(j : ℚ)| < 2 ^ 53 := by exact_mod_cast hj
        rw [abs_mul, abs_of_pos hpos, add_comm, zpow_add₀ (by norm_num)]
        exact mul_lt_mul_of_pos_right hcast hpos
      have hlog : Int.log 2 |(j : ℚ) * 2 ^ e| < e + 53 :=
        (Int.lt_zpow_iff_log_lt (by norm_num) (abs_pos.mpr hx)).mp hlt
      exact ⟨(e - (Int.log 2 |(j : ℚ) * 2 ^ e| - 52)).toNat, by omega⟩
    have hwhole : (j : ℚ) * 2 ^ e / unit (j * 2 ^ e) = (j * 2 ^ k : ℤ) := by
      rw [div_eq_iff (unit_pos _).ne', unit]
      push_cast
      rw [mul_assoc, ← zpow_natCast, ← zpow_add₀ (by norm_num), add_comm (k : ℤ), ← hk]
    rw [nearest, hwhole, toEven_intCast, ← hwhole, div_mul_cancel₀ _ (unit_pos _).ne']

/-- Whole numbers up to `2 ^ 53` are kept. -/
theorem nearest_intCast (hj : j.natAbs ≤ 2 ^ 53) : nearest j = j := by
  rcases hj.lt_or_eq with hlt | heq
  · have hkept := nearest_eq_self (j := j) (e := 0) (by
      rw [Int.abs_eq_natAbs]
      exact_mod_cast hlt)
    rwa [zpow_zero, mul_one] at hkept
  · -- the greatest of them has one bit
    have hbound : nearest ((1 : ℤ) * 2 ^ (53 : ℤ)) = (1 : ℤ) * 2 ^ (53 : ℤ) :=
      nearest_eq_self (by norm_num)
    have hcast : ((1 : ℤ) * 2 ^ (53 : ℤ) : ℚ) = (2 ^ 53 : ℤ) := by norm_num
    rw [hcast] at hbound
    rcases Int.natAbs_eq j with hpos | hneg
    · rw [hpos, heq]
      exact hbound
    · rw [hneg, heq, Int.cast_neg, nearest_neg]
      exact congrArg Neg.neg hbound

/-- The relative error. -/
theorem exists_nearest_eq (x : ℚ) : ∃ δ : ℚ, |δ| ≤ 1 / 2 ^ 53 ∧ nearest x = x * (1 + δ) := by
  rcases eq_or_ne x 0 with rfl | hx
  · exact ⟨0, by norm_num, by rw [nearest_zero, zero_mul]⟩
  · refine ⟨(nearest x - x) / x, ?_, ?_⟩
    · rw [abs_div, div_le_iff₀ (abs_pos.mpr hx), one_div_mul_eq_div]
      exact nearest_error x
    · rw [mul_add, mul_one, mul_div_cancel₀ _ hx, add_sub_cancel]

end Reckoner.Rounding
