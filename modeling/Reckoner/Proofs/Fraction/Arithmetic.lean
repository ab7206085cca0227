import Mathlib.Algebra.Order.Field.Power
import Mathlib.Data.Int.Cast.Field
import Mathlib.Data.Rat.Lemmas
import Mathlib.Tactic.FieldSimp
import Mathlib.Tactic.Ring
import Reckoner.Proofs.Expr.Meaning

/-!
# Fractions as rational numbers

An operation on fractions that gives a result gives the exact one, in lowest terms. What
is refused is never wrong: parts that leave the range give nothing at all.
-/

namespace Reckoner.Fraction

/-- The sign stands above the line and no common factor is left. -/
structure Lowest (q : Fraction) : Prop where
  /-- Nothing negative and no zero stands below the line. -/
  den_pos : 0 < q.den
  /-- No common factor is left. -/
  coprime : Int.gcd q.num q.den = 1

variable {p q r : Fraction} {m n : Int}

/-- Normal fractions are in lowest terms. -/
theorem Normal.lowest (h : Normal q) : Lowest q := ⟨h.den_range.1, h.coprime⟩

theorem lowest_ofInt (n : Int) : Lowest (ofInt n) := ⟨Int.one_pos, by simp [ofInt]⟩

/-- A fraction in lowest terms has no zero below the line. -/
theorem Lowest.den_ne_zero (h : Lowest q) : (q.den : ℚ) ≠ 0 :=
  Int.cast_ne_zero.mpr h.den_pos.ne'

private theorem Lowest.natAbs_coprime (h : Lowest q) : Nat.Coprime q.num.natAbs q.den.natAbs :=
  h.coprime

/-- A fraction in lowest terms has the parts of its value. -/
theorem Lowest.num_value (h : Lowest q) : q.value.num = q.num :=
  Rat.num_div_eq_of_coprime h.den_pos h.natAbs_coprime

/-- In lowest terms the denominator is that of the value. -/
theorem Lowest.den_value (h : Lowest q) : (q.value.den : Int) = q.den :=
  Rat.den_div_eq_of_coprime h.den_pos h.natAbs_coprime

/-- The value is whole exactly if nothing is left below the line. -/
theorem Lowest.isWhole_iff (h : Lowest q) : q.isWhole = true ↔ q.value.den = 1 := by
  have hd := h.den_value
  rw [isWhole, beq_iff_eq]
  omega

/-- A whole fraction is worth its numerator. -/
theorem value_eq_num (hw : q.isWhole = true) : q.value = q.num := by
  rw [isWhole, beq_iff_eq] at hw
  rw [value, hw, Int.cast_one, div_one]

/-- Only zero is worth zero. -/
theorem Lowest.value_eq_zero_iff (h : Lowest q) : q.value = 0 ↔ q.isZero = true := by
  rw [isZero, beq_iff_eq, ← Rat.num_eq_zero, h.num_value]

/-- The sign is that of the numerator. -/
theorem Lowest.value_neg_iff (h : Lowest q) : q.value < 0 ↔ q.num < 0 := by
  rw [← Rat.num_neg, h.num_value]

/-! ## The operations -/

/-- A fraction is made of its parts without a change of value. -/
theorem make?_sound (h : make? m n = some q) : q.value = m / n ∧ Lowest q := by
  unfold make? at h
  split at h
  · cases h
  · rename_i hr
    have hn : n ≠ 0 := fun hn => hr (.inl hn)
    have hg : (Int.gcd m n : Int) ≠ 0 := by
      rw [Ne, Int.natCast_eq_zero, Int.gcd_eq_zero_iff]
      exact fun hz => hn hz.2
    have hgq : ((Int.gcd m n : Int) : ℚ) ≠ 0 := Int.cast_ne_zero.mpr hg
    have hnq : (n : ℚ) ≠ 0 := Int.cast_ne_zero.mpr hn
    have hm' : ((m / Int.gcd m n : Int) : ℚ) = m / (Int.gcd m n : Int) :=
      Int.cast_div (Int.gcd_dvd_left m n) hgq
    have hn' : ((n / Int.gcd m n : Int) : ℚ) = n / (Int.gcd m n : Int) :=
      Int.cast_div (Int.gcd_dvd_right m n) hgq
    have hcoprime : Int.gcd (m / Int.gcd m n) (n / Int.gcd m n) = 1 :=
      Int.gcd_ediv_gcd_ediv_gcd_of_ne_zero_right hn
    have hvalue : ((m / Int.gcd m n : Int) : ℚ) / ((n / Int.gcd m n : Int) : ℚ) = m / n := by
      rw [hm', hn', div_div_div_cancel_right₀ hgq]
    have hgpos : (0 : Int) < Int.gcd m n := by omega
    cases h
    split
    · rename_i hneg
      refine ⟨?_, ?_, ?_⟩
      · simp only [value, Int.neg_mul, Int.one_mul, Int.cast_neg, neg_div_neg_eq, hvalue]
      · have hquotient : n / Int.gcd m n < 0 := Int.ediv_neg_of_neg_of_pos hneg hgpos
        simp only
        omega
      · simpa only [Int.neg_mul, Int.one_mul, Int.gcd_neg, Int.neg_gcd] using hcoprime
    · rename_i hpos
      refine ⟨?_, ?_, ?_⟩
      · simp only [value, Int.one_mul, hvalue]
      · simp only [Int.one_mul]
        exact Int.ediv_pos_of_pos_of_dvd (by omega) hgpos.le (Int.gcd_dvd_right m n)
      · simpa only [Int.one_mul] using hcoprime

/-- Negation gives the negative value in lowest terms. -/
theorem neg?_sound (h : neg? q = some r) (hq : Lowest q) : r.value = -q.value ∧ Lowest r := by
  simp only [neg?, Option.bind_eq_bind, Option.bind_eq_some_iff, inRange?_eq_some] at h
  obtain ⟨_, ⟨_, rfl⟩, hr⟩ := h
  cases hr
  refine ⟨?_, hq.den_pos, ?_⟩
  · simp only [value, Int.cast_neg, neg_div]
  · simpa only [Int.neg_gcd] using hq.coprime

/-- Addition gives the sum of the values in lowest terms. -/
theorem add?_sound (h : add? p q = some r) (hp : Lowest p) (hq : Lowest q) :
    r.value = p.value + q.value ∧ Lowest r := by
  simp only [add?, Option.bind_eq_bind, Option.bind_eq_some_iff, inRange?_eq_some] at h
  obtain ⟨_, ⟨_, rfl⟩, _, ⟨_, rfl⟩, _, ⟨_, rfl⟩, _, ⟨_, rfl⟩, hr⟩ := h
  obtain ⟨hvalue, hlowest⟩ := make?_sound hr
  refine ⟨?_, hlowest⟩
  have hpd := hp.den_ne_zero
  have hqd := hq.den_ne_zero
  rw [hvalue, value, value]
  push_cast
  field_simp

/-- Subtraction gives the difference of the values in lowest terms. -/
theorem sub?_sound (h : sub? p q = some r) (hp : Lowest p) (hq : Lowest q) :
    r.value = p.value - q.value ∧ Lowest r := by
  simp only [sub?, Option.bind_eq_bind, Option.bind_eq_some_iff] at h
  obtain ⟨s, hs, hr⟩ := h
  obtain ⟨hneg, hlowest⟩ := neg?_sound hs hq
  rw [sub_eq_add_neg, ← hneg]
  exact add?_sound hr hp hlowest

/-- Multiplication gives the product of the values in lowest terms. -/
theorem mul?_sound (h : mul? p q = some r) : r.value = p.value * q.value ∧ Lowest r := by
  simp only [mul?, Option.bind_eq_bind, Option.bind_eq_some_iff, inRange?_eq_some] at h
  obtain ⟨_, ⟨_, rfl⟩, _, ⟨_, rfl⟩, hr⟩ := h
  obtain ⟨hvalue, hlowest⟩ := make?_sound hr
  refine ⟨?_, hlowest⟩
  rw [hvalue, value, value]
  push_cast
  exact (div_mul_div_comm _ _ _ _).symm

/-- Division gives the quotient of the values in lowest terms. -/
theorem div?_sound (h : div? p q = some r) : r.value = p.value / q.value ∧ Lowest r := by
  simp only [div?, Option.bind_eq_bind, Option.bind_eq_some_iff, inRange?_eq_some] at h
  obtain ⟨_, ⟨_, rfl⟩, _, ⟨_, rfl⟩, hr⟩ := h
  obtain ⟨hvalue, hlowest⟩ := make?_sound hr
  refine ⟨?_, hlowest⟩
  rw [hvalue, value, value]
  push_cast
  exact (div_div_div_eq _ _ _ _).symm

/-- Powers of zero and the units repeat with period two. -/
theorem power?_sound {e : Nat} (h : power? m e = some n) : n = m ^ e := by
  unfold power? at h
  split at h
  · exact (inRange?_eq_some.mp h).2.symm
  · split at h
    · rename_i he hm
      cases h
      change m ^ (64 + e % 2) = m ^ e
      rcases (by omega : m = -1 ∨ m = 0 ∨ m = 1) with rfl | rfl | rfl
      · rw [neg_one_pow_eq_pow_mod_two, neg_one_pow_eq_pow_mod_two (n := e)]
        congr 1
        omega
      · rw [zero_pow (by omega), zero_pow (by omega)]
      · rw [one_pow, one_pow]
    · cases h

/-- A power is the power of the value, and its exponent exchanges the parts if negative. -/
theorem pow?_sound {e : Int} (h : pow? q e = some r) : r.value = q.value ^ e ∧ Lowest r := by
  unfold pow? at h
  split at h
  · cases h
  · simp only [Option.bind_eq_bind, Option.bind_eq_some_iff] at h
    obtain ⟨num, hnum, den, hden, hr⟩ := h
    obtain rfl := power?_sound hnum
    obtain rfl := power?_sound hden
    split at hr
    · rename_i he
      obtain ⟨hvalue, hlowest⟩ := make?_sound hr
      refine ⟨?_, hlowest⟩
      have hexponent : e = -(e.natAbs : Int) := by omega
      rw [hvalue, value, hexponent, zpow_neg, zpow_natCast, div_pow, inv_div, Int.natAbs_neg,
        Int.natAbs_natCast, Int.cast_pow, Int.cast_pow]
    · rename_i he
      obtain ⟨hvalue, hlowest⟩ := make?_sound hr
      refine ⟨?_, hlowest⟩
      have hexponent : e = (e.natAbs : Int) := by omega
      rw [hvalue, value, hexponent, zpow_natCast, div_pow, Int.natAbs_natCast, Int.cast_pow,
        Int.cast_pow]

end Reckoner.Fraction
