import Mathlib.Data.Nat.Log
import Mathlib.Order.Compare
import Reckoner.Proofs.Decimal.Rounding
import Reckoner.Proofs.Decimal.Sign

/-!
# Values of doubles

A double with fifty-three bits stands for a sign, a whole number and a power of two. Doubles are
in the order of their values. Products, quotients and conversions of whole numbers are rounded as
rational numbers are, as long as the exponents stay far from the ends of their range.
-/

namespace Reckoner

open Float.Model (UnpackedFloat Format totalExponent)
open Float.Model.UnpackedFloat (Sign Accuracy ExtendedMantissa)
open Rounding

/-- The number with the sign. -/
def signed : Sign → ℚ → ℚ
  | .positive, x => x
  | .negative, x => -x

/-- Zero, or a double with fifty-three bits whose exponent is at most `k` away from zero, and its
value. -/
inductive Represents (k : ℕ) : UnpackedFloat → ℚ → Prop where
  | zero (s : Sign) : Represents k (.zero s) 0
  | finite (s : Sign) {m : ℕ} {e : ℤ} (hm : 0 < m) : 2 ^ 52 ≤ m → m < 2 ^ 53 → e.natAbs ≤ k →
    Represents k (.finite s m e hm) (signed s (m * 2 ^ e))

variable {k l m n : ℕ} {d e : ℤ} {u v : UnpackedFloat} {x y : ℚ} {s t : Sign}

/-- A bound of the exponent may be raised. -/
theorem Represents.mono (h : Represents k u x) (hkl : k ≤ l) : Represents l u x := by
  cases h with
  | zero s => exact .zero s
  | finite s hm hlo hhi he => exact .finite s hm hlo hhi (he.trans hkl)

/-- Signs are multiplied apart from the magnitudes. -/
theorem signed_mul (s t : Sign) (x y : ℚ) : signed s x * signed t y = signed (s * t) (x * y) := by
  cases s <;> cases t
  · exact neg_mul_neg x y
  · exact neg_mul x y
  · exact mul_neg x y
  · rfl

/-- Signs are divided apart from the magnitudes. -/
theorem signed_div (s t : Sign) (x y : ℚ) : signed s x / signed t y = signed (s / t) (x / y) := by
  cases s <;> cases t
  · exact neg_div_neg_eq x y
  · exact neg_div y x
  · exact div_neg x
  · rfl

/-- Rounding leaves the sign alone. -/
theorem nearest_signed (s : Sign) (x : ℚ) : nearest (signed s x) = signed s (nearest x) := by
  cases s with
  | positive => rfl
  | negative => exact nearest_neg x

/-- The double with the other sign. -/
theorem Represents.neg (h : Represents k u x) : Represents k u.neg (-x) := by
  cases h with
  | zero s =>
    rw [neg_zero]
    exact .zero _
  | @finite s m e hm hlo hhi he =>
    have hvalue : -signed s (m * 2 ^ e) = signed (-s) (m * 2 ^ e) := by
      cases s with
      | positive => rfl
      | negative => exact neg_neg _
    rw [hvalue]
    exact .finite _ hm hlo hhi he

/-! ## Order -/

private theorem value_pos (hm : 0 < m) (e : ℤ) : (0 : ℚ) < m * 2 ^ e :=
  mul_pos (Nat.cast_pos.mpr hm) (zpow_pos (by norm_num) e)

/-- Of two numbers with fifty-three bits the one with the greater exponent is greater. -/
private theorem value_lt (hde : d < e) (hm : m < 2 ^ 53) (hn : 2 ^ 52 ≤ n) :
    (m * 2 ^ d : ℚ) < n * 2 ^ e := by
  have hd : (0 : ℚ) < 2 ^ d := zpow_pos (by norm_num) d
  have hstep : (2 : ℚ) ^ 53 * 2 ^ d ≤ 2 ^ 52 * 2 ^ e := by
    rw [← zpow_natCast, ← zpow_natCast, ← zpow_add₀ (by norm_num), ← zpow_add₀ (by norm_num)]
    exact zpow_le_zpow_right₀ (by norm_num) (by push_cast; omega)
  have hm' : (m : ℚ) < 2 ^ 53 := by exact_mod_cast hm
  have hn' : (2 : ℚ) ^ 52 ≤ n := by exact_mod_cast hn
  calc (m : ℚ) * 2 ^ d < 2 ^ 53 * 2 ^ d := mul_lt_mul_of_pos_right hm' hd
    _ ≤ 2 ^ 52 * 2 ^ e := hstep
    _ ≤ n * 2 ^ e := mul_le_mul_of_nonneg_right hn' (zpow_pos (by norm_num) e).le

/-- Numbers with fifty-three bits are compared by their exponents and then by their bits. -/
private theorem compare_parts (hm : 2 ^ 52 ≤ m ∧ m < 2 ^ 53) (hn : 2 ^ 52 ≤ n ∧ n < 2 ^ 53) :
    (compare d e).then (compare m n) = cmp (m * 2 ^ d : ℚ) (n * 2 ^ e) := by
  rcases lt_trichotomy d e with hde | rfl | hde
  · rw [Int.compare_eq_lt.mpr hde, (cmp_eq_lt_iff _ _).mpr (value_lt hde hm.2 hn.1)]
    rfl
  · rw [Int.compare_eq_eq.mpr rfl]
    have hmono : StrictMono fun m : ℕ => (m * 2 ^ d : ℚ) := fun a b hab =>
      mul_lt_mul_of_pos_right (Nat.cast_lt.mpr hab) (zpow_pos (by norm_num) d)
    rw [hmono.cmp_map_eq, cmp_eq_compare]
    rfl
  · rw [Int.compare_eq_gt.mpr hde, (cmp_eq_gt_iff _ _).mpr (value_lt hde hn.2 hm.1)]
    rfl

/-- Doubles are in the order of their values. -/
theorem Represents.compare_eq (hu : Represents k u x) (hv : Represents l v y) :
    u.compare v = some (cmp x y) := by
  cases hu with
  | zero s =>
    cases hv with
    | zero t => exact congrArg some (cmp_self_eq_eq _).symm
    | @finite t n e hn _ _ _ =>
      have hpos := value_pos hn e
      cases t with
      | positive => exact congrArg some ((cmp_eq_lt_iff _ _).mpr hpos).symm
      | negative => exact congrArg some ((cmp_eq_gt_iff _ _).mpr (neg_lt_zero.mpr hpos)).symm
  | @finite s m d hm hmlo hmhi _ =>
    have hmpos := value_pos hm d
    cases hv with
    | zero t =>
      cases s with
      | positive => exact congrArg some ((cmp_eq_gt_iff _ _).mpr hmpos).symm
      | negative => exact congrArg some ((cmp_eq_lt_iff _ _).mpr (neg_lt_zero.mpr hmpos)).symm
    | @finite t n e hn hnlo hnhi _ =>
      have hnpos := value_pos hn e
      have hparts := compare_parts (d := d) (e := e) ⟨hmlo, hmhi⟩ ⟨hnlo, hnhi⟩
      cases s <;> cases t
      · have hanti : StrictAnti fun x : ℚ => -x := fun a b hab => neg_lt_neg hab
        rw [signed, signed, hanti.cmp_map_eq, ← cmp_swap, ← hparts]
        rfl
      · have hlt := (neg_lt_zero.mpr hmpos).trans hnpos
        exact congrArg some ((cmp_eq_lt_iff _ _).mpr hlt).symm
      · have hlt := (neg_lt_zero.mpr hnpos).trans hmpos
        exact congrArg some ((cmp_eq_gt_iff _ _).mpr hlt).symm
      · rw [signed, signed, ← hparts]
        rfl

/-- Doubles are in the order of their values. -/
theorem Represents.lt_iff {a b : Float} (ha : Represents k (unpacked a) x)
    (hb : Represents l (unpacked b) y) : a < b ↔ x < y := by
  rw [lt_iff_unpacked, UnpackedFloat.lt, ha.compare_eq hb, ← cmp_eq_lt_iff]
  cases cmp x y <;> decide

/-- What has a value with fifty-three bits is finite. -/
theorem Represents.isFinite {a : Float} (h : Represents k (unpacked a) x) :
    a.isFinite = true := by
  change (unpacked a).isFinite = true
  generalize unpacked a = u at h ⊢
  cases h <;> rfl

/-! ## Bits -/

/-- A double of the range is packed without loss. -/
theorem Represents.unpack_pack (h : Represents k u x) (hk : k ≤ 971) :
    (Float.Model.pack u).unpack = u := by
  change UnpackedFloat.unpack Format.binary64 (UnpackedFloat.pack Format.binary64 u) = u
  cases h with
  | zero s =>
    cases s <;> rfl
  | @finite s m e hm hlo hhi he =>
    have hlog : m.log2 = 52 := (Nat.log2_eq_iff hm.ne').mpr ⟨hlo, hhi⟩
    have h1023 : (Format.binary64.exponentBias : ℤ) = 1023 := rfl
    have hbias : (e + (Format.binary64.exponentBias : ℤ) + (52 : ℕ)).toNat = (e + 1075).toNat := by
      rw [h1023]
      omega
    have hpack : UnpackedFloat.pack Format.binary64 (.finite s m e hm) =
        UnpackedFloat.packComponents Format.binary64 s (BitVec.ofNat 11 (e + 1075).toNat)
          (BitVec.ofNat 52 m) := by
      unfold UnpackedFloat.pack
      dsimp only
      rw [hbias, if_neg (by omega), if_pos (by rw [hlog]; rfl)]
    have hexponent : (BitVec.ofNat 11 (e + 1075).toNat).toNat = (e + 1075).toNat := by
      rw [BitVec.toNat_ofNat]
      omega
    have hmantissa : (1#1 ++ BitVec.ofNat 52 m).toNat = m := by
      have hlead : (1 % 2 ^ 1) <<< 52 = 2 ^ 52 := rfl
      rw [BitVec.toNat_append, ← Nat.shiftLeft_add_eq_or_of_lt (BitVec.isLt _), BitVec.toNat_ofNat,
        BitVec.toNat_ofNat, hlead]
      omega
    have hsign : Sign.ofBitVec s.toBitVec = s := by cases s <;> rfl
    have hones : BitVec.ofNat 11 (e + 1075).toNat ≠ -1#11 := fun h => by
      have htoNat : (e + 1075).toNat = 2047 := hexponent.symm.trans (congrArg BitVec.toNat h)
      omega
    have hzeros : BitVec.ofNat 11 (e + 1075).toNat ≠ 0#11 := fun h => by
      have htoNat : (e + 1075).toNat = 0 := hexponent.symm.trans (congrArg BitVec.toNat h)
      omega
    rw [hpack]
    unfold UnpackedFloat.unpack
    dsimp only
    rw [if_neg (by rwa [UnpackedFloat.unpackExponent_packComponents]),
      if_neg (by rwa [UnpackedFloat.unpackExponent_packComponents])]
    rw [UnpackedFloat.finite.injEq]
    refine ⟨?_, ?_, ?_⟩
    · rw [unpackSign_packComponents, hsign]
    · rw [UnpackedFloat.unpackMantissa_packComponents, hmantissa]
    · rw [UnpackedFloat.unpackExponent_packComponents, hexponent, h1023]
      omega

/-- A double that is made of a number represents the value of the number. -/
theorem Represents.ofModel (h : Represents k u x) (hk : k ≤ 971) :
    Represents k (unpacked (Float.ofModel (Float.Model.pack u))) x := by
  have hsame : unpacked (Float.ofModel (Float.Model.pack u)) = u := h.unpack_pack hk
  rwa [hsame]

/-! ## Rounding -/

/-- A mantissa with its round and sticky bits is read as a number: the round bit is a half, and the
sticky bit tells whether there is anything beyond. -/
def HasValue (em : ExtendedMantissa) (y : ℚ) : Prop :=
  ∃ δ : ℚ, 0 ≤ δ ∧ δ < 1 / 2 ∧ (em.stickyBit = true ↔ δ ≠ 0) ∧
    y = em.mantissa + ((if em.roundBit then 1 / 2 else 0) + δ)

variable {em : ExtendedMantissa}

/-- The mantissa is the whole part of the value. -/
theorem HasValue.bounds (h : HasValue em y) : (em.mantissa : ℚ) ≤ y ∧ y < em.mantissa + 1 := by
  obtain ⟨δ, h0, h1, -, rfl⟩ := h
  split <;> constructor <;> linarith

/-- Shifting halves the number. -/
theorem HasValue.shiftRightOne (h : HasValue em y) : HasValue em.shiftRightOne (y / 2) := by
  obtain ⟨δ, h0, h1, hsticky, rfl⟩ := h
  obtain ⟨m, round, sticky⟩ := em
  have hm : (m : ℚ) = 2 * (m / 2 : ℕ) + (m % 2 : ℕ) := by
    exact_mod_cast (Nat.div_add_mod m 2).symm
  have hbit : (if (ExtendedMantissa.mk m round sticky).shiftRightOne.roundBit = true then 1 / 2
      else 0 : ℚ) = (m % 2 : ℕ) / 2 := by
    rcases Nat.mod_two_eq_zero_or_one m with h | h <;>
      simp only [ExtendedMantissa.shiftRightOne, h] <;> norm_num
  refine ⟨(if round then 1 / 4 else 0) + δ / 2, ?_, ?_, ?_, ?_⟩
  · split <;> linarith
  · split <;> linarith
  · cases round with
    | true =>
      simp only [ExtendedMantissa.shiftRightOne, Bool.true_or, if_true, true_iff]
      linarith
    | false =>
      simp only [ExtendedMantissa.shiftRightOne, Bool.false_or, Bool.false_eq_true, if_false,
        zero_add]
      rw [hsticky]
      simp
  · rw [hbit]
    change ((m : ℚ) + _) / 2 = (m / 2 : ℕ) + _
    rw [hm]
    cases round
    · simp only [Bool.false_eq_true, if_false]
      ring
    · simp only [if_true]
      ring

/-- Shifting by more places divides the value by a power of two. -/
theorem HasValue.shiftRight (h : HasValue em y) (n : ℕ) : HasValue (em >>> n) (y / 2 ^ n) := by
  induction n with
  | zero =>
    rw [pow_zero, div_one]
    exact h
  | succ n ih =>
    rw [pow_succ, ← div_div]
    exact ih.shiftRightOne

/-- The bits suffice to round the number. -/
theorem HasValue.roundedMantissa (h : HasValue em y) : (em.roundedMantissa : ℤ) = toEven y := by
  obtain ⟨δ, h0, h1, hsticky, rfl⟩ := h
  obtain ⟨m, round, sticky⟩ := em
  have hcast : ((m : ℕ) : ℚ) = ((m : ℤ) : ℚ) := (Int.cast_natCast m).symm
  rw [hcast, toEven_add _ (by split <;> linarith) (by split <;> linarith)]
  cases round with
  | false =>
    rw [if_neg Bool.false_ne_true, zero_add, if_pos h1]
    cases sticky <;> rfl
  | true =>
    rw [if_pos rfl, if_neg (by linarith)]
    cases sticky with
    | false =>
      have hzero : δ = 0 := by
        by_contra hne
        exact Bool.false_ne_true (hsticky.mpr hne)
      rw [hzero, add_zero, if_pos rfl]
      rfl
    | true =>
      have hpos : 0 < δ := h0.lt_of_ne' (hsticky.mp rfl)
      rw [if_neg (by linarith)]
      rfl

variable {a : Accuracy}

/-- A mantissa is kept when it is given its accuracy. -/
theorem mantissa_ofMantissaAndAccuracy (m : ℕ) (a : Accuracy) :
    (ExtendedMantissa.ofMantissaAndAccuracy m a).mantissa = m := by
  cases a with
  | exact => rfl
  | inexact o => cases o <;> rfl

/-- A mantissa is shifted until fifty-three bits are left. -/
theorem shiftToTargetExponent_eq (hn : m.log2 = 52 + n) (he : -1074 ≤ e + n) :
    UnpackedFloat.shiftToTargetExponent Format.binary64 m e a =
      (ExtendedMantissa.ofMantissaAndAccuracy m a >>> n, e + n) := by
  have htarget : Format.binary64.targetExponent (totalExponent m e) = e + n := by
    have hbits : (Format.binary64.mantissaBits : ℤ) = 53 := rfl
    have hmin : Format.binary64.minExponent = -1074 := rfl
    rw [Format.targetExponent, totalExponent, hbits, hmin, hn]
    omega
  have hshift : (e + n - e).toNat = n := by omega
  rw [UnpackedFloat.shiftToTargetExponent, htarget, UnpackedFloat.shiftToExponent, hshift]

/-- A mantissa with `52 + n` bits behind the first one is a number with `52` bits there, scaled. -/
theorem HasValue.bits (h : HasValue (ExtendedMantissa.ofMantissaAndAccuracy m a) y) (hm : m ≠ 0)
    (hn : m.log2 = 52 + n) : 2 ^ 52 ≤ y / 2 ^ n ∧ y / 2 ^ n < 2 ^ 53 := by
  obtain ⟨hlo, hhi⟩ := h.bounds
  rw [mantissa_ofMantissaAndAccuracy] at hlo hhi
  have hm1 : (2 : ℚ) ^ (52 + n) ≤ m := by exact_mod_cast hn ▸ Nat.log2_self_le hm
  have hm2 : (m : ℚ) + 1 ≤ 2 ^ (53 + n) := by
    have hlt : m < 2 ^ (52 + n + 1) := hn ▸ Nat.lt_log2_self
    rw [Nat.add_right_comm] at hlt
    exact_mod_cast hlt
  rw [le_div_iff₀ (by positivity), div_lt_iff₀ (by positivity), ← pow_add, ← pow_add]
  exact ⟨hm1.trans hlo, hhi.trans_le hm2⟩

/-- Rounding may carry into a fifty-fourth bit; the last one is a zero then and falls off. -/
private theorem represents_carried (hlo : 2 ^ 52 ≤ m) (hhi : m ≤ 2 ^ 53) (he : e.natAbs ≤ k)
    (hk : k ≤ 970) :
    Represents (k + 1)
      (if h : (UnpackedFloat.shiftToTargetExponent Format.binary64 m e .exact).1.mantissa = 0 then
        .zero s
      else .finite s (UnpackedFloat.shiftToTargetExponent Format.binary64 m e .exact).1.mantissa
        (UnpackedFloat.shiftToTargetExponent Format.binary64 m e .exact).2 (Nat.pos_of_ne_zero h))
      (signed s (m * 2 ^ e)) := by
  rcases hhi.lt_or_eq with hlt | rfl
  · have hlog : m.log2 = 52 + 0 := (Nat.log2_eq_iff (by omega)).mpr ⟨hlo, hlt⟩
    have hmantissa : (ExtendedMantissa.ofMantissaAndAccuracy m .exact >>> 0).mantissa = m := rfl
    rw [shiftToTargetExponent_eq hlog (by omega), dif_neg (by rw [hmantissa]; omega)]
    dsimp only
    rw [Nat.cast_zero, add_zero]
    exact .finite s _ hlo hlt (by omega)
  · have hlog : (2 ^ 53).log2 = 52 + 1 := Nat.log2_two_pow
    have hmantissa : (ExtendedMantissa.ofMantissaAndAccuracy (2 ^ 53) .exact >>> 1).mantissa =
        2 ^ 52 := rfl
    have hvalue : ((2 ^ 53 : ℕ) : ℚ) * 2 ^ e = (2 ^ 52 : ℕ) * 2 ^ (e + (1 : ℕ)) := by
      rw [zpow_add₀ (by norm_num) e, zpow_natCast, pow_one]
      push_cast
      ring
    rw [shiftToTargetExponent_eq hlog (by omega), dif_neg (by rw [hmantissa]; decide), hvalue]
    exact .finite (m := 2 ^ 52) s _ (Nat.le_refl _) (by decide) (by omega)

/-- A number read off at least fifty-three bits is rounded as a rational number is. -/
theorem represents_round (hm : 2 ^ 52 ≤ m)
    (hy : HasValue (ExtendedMantissa.ofMantissaAndAccuracy m a) y)
    (he : ((m.log2 : ℤ) + e - 52).natAbs ≤ k) (hk : k ≤ 970) :
    Represents (k + 1) (UnpackedFloat.roundWithAccuracy Format.binary64 s m e a)
      (signed s (nearest (y * 2 ^ e))) := by
  have hm0 : m ≠ 0 := by omega
  obtain ⟨n, hn⟩ : ∃ n, m.log2 = 52 + n :=
    Nat.exists_eq_add_of_le ((Nat.le_log2 hm0).mpr hm)
  obtain ⟨hlo, hhi⟩ := hy.bits hm0 hn
  have hscaled : y * 2 ^ e = y / 2 ^ n * 2 ^ (e + n) := by
    rw [zpow_add₀ (by norm_num), zpow_natCast]
    field_simp
  have hread := (hy.shiftRight n).roundedMantissa
  have hrange := toEven_mem hlo hhi
  rw [hscaled, nearest_eq hlo hhi, ← hread, Int.cast_natCast]
  rw [← hread] at hrange
  unfold UnpackedFloat.roundWithAccuracy
  rw [shiftToTargetExponent_eq hn (by omega)]
  exact represents_carried (by omega) (by omega) (by omega) hk

/-! ## Operations -/

/-- A mantissa of which nothing is left out. -/
theorem hasValue_exact (m : ℕ) : HasValue (ExtendedMantissa.ofMantissaAndAccuracy m .exact) m :=
  ⟨0, le_rfl, by norm_num, by simp [ExtendedMantissa.ofMantissaAndAccuracy], by
    simp [ExtendedMantissa.ofMantissaAndAccuracy]⟩

/-- A quotient with the remainder that is left. -/
theorem hasValue_quotient (m : ℕ) (hn : 0 < n) :
    HasValue (ExtendedMantissa.ofMantissaAndAccuracy (m / n)
      (UnpackedFloat.accuracyOfFraction (m % n) n)) (m / n : ℚ) := by
  have hn' : (0 : ℚ) < n := Nat.cast_pos.mpr hn
  have hdivision : (m / n : ℚ) = (m / n : ℕ) + (m % n : ℕ) / n := by
    rw [eq_comm, ← eq_sub_iff_add_eq', div_sub' hn'.ne']
    congr 1
    rw [eq_sub_iff_add_eq']
    exact_mod_cast Nat.div_add_mod m n
  have hlt : (m % n : ℕ) < (n : ℚ) := by exact_mod_cast Nat.mod_lt m hn
  rw [hdivision]
  generalize m / n = q
  generalize m % n = r at hlt
  unfold UnpackedFloat.accuracyOfFraction
  split
  · rename_i hr
    rw [hr, Nat.cast_zero, zero_div, add_zero]
    exact hasValue_exact q
  · rename_i hr
    have hr' : (0 : ℚ) < r := Nat.cast_pos.mpr (Nat.pos_of_ne_zero hr)
    have hpart : 0 < (r / n : ℚ) := div_pos hr' hn'
    rcases lt_trichotomy (2 * r) n with h | h | h
    · have hhalf : (r / n : ℚ) < 1 / 2 := by
        rw [div_lt_iff₀ hn']
        have hcast : (2 : ℚ) * r < n := by exact_mod_cast h
        linarith
      rw [Nat.compare_eq_lt.mpr h]
      exact ⟨r / n, hpart.le, hhalf, by simp [ExtendedMantissa.ofMantissaAndAccuracy, hpart.ne'],
        by simp [ExtendedMantissa.ofMantissaAndAccuracy]⟩
    · have hhalf : (r / n : ℚ) = 1 / 2 := by
        rw [div_eq_iff hn'.ne']
        have hcast : (2 : ℚ) * r = n := by exact_mod_cast h
        linarith
      rw [Nat.compare_eq_eq.mpr h, hhalf]
      exact ⟨0, le_rfl, by norm_num, by simp [ExtendedMantissa.ofMantissaAndAccuracy],
        by simp [ExtendedMantissa.ofMantissaAndAccuracy]⟩
    · have hhalf : 1 / 2 < (r / n : ℚ) := by
        rw [lt_div_iff₀ hn']
        have hcast : (n : ℚ) < 2 * r := by exact_mod_cast h
        linarith
      have hone : (r / n : ℚ) < 1 := (div_lt_one hn').mpr hlt
      rw [Nat.compare_eq_gt.mpr h]
      refine ⟨r / n - 1 / 2, by linarith, by linarith, ?_, ?_⟩
      · simp only [ExtendedMantissa.ofMantissaAndAccuracy, true_iff]
        linarith
      · simp [ExtendedMantissa.ofMantissaAndAccuracy]

/-- The first bit of a product. -/
private theorem log2_mul (hm : 2 ^ 52 ≤ m ∧ m < 2 ^ 53) (hn : 2 ^ 52 ≤ n ∧ n < 2 ^ 53) :
    104 ≤ (m * n).log2 ∧ (m * n).log2 ≤ 105 := by
  have hlo : 2 ^ 52 * 2 ^ 52 ≤ m * n := Nat.mul_le_mul hm.1 hn.1
  have hhi : m * n < 2 ^ 53 * 2 ^ 53 := Nat.mul_lt_mul'' hm.2 hn.2
  have hne : m * n ≠ 0 := by omega
  exact ⟨(Nat.le_log2 hne).mpr hlo, Nat.lt_succ_iff.mp ((Nat.log2_lt hne).mpr hhi)⟩

/-- Products are rounded. -/
theorem Represents.mul (hu : Represents k u x) (hv : Represents l v y) (hkl : k + l ≤ 900) :
    Represents (k + l + 54) (UnpackedFloat.mul Format.binary64 u v) (nearest (x * y)) := by
  cases hu with
  | zero s =>
    rw [zero_mul, nearest_zero]
    cases hv with
    | zero t => exact .zero _
    | finite t => exact .zero _
  | @finite s m d hm hmlo hmhi hd =>
    cases hv with
    | zero t =>
      rw [mul_zero, nearest_zero]
      exact .zero _
    | @finite t n e hn hnlo hnhi he =>
      have hlog := log2_mul ⟨hmlo, hmhi⟩ ⟨hnlo, hnhi⟩
      have hbits : 2 ^ 52 ≤ m * n := hmlo.trans (Nat.le_mul_of_pos_right m hn)
      have hvalue : (m * 2 ^ d * (n * 2 ^ e) : ℚ) = (m * n : ℕ) * 2 ^ (d + e) := by
        rw [zpow_add₀ (by norm_num), Nat.cast_mul]
        ring
      rw [signed_mul, nearest_signed, hvalue]
      exact represents_round hbits (hasValue_exact _) (by omega) (by omega)

/-- The first bit of a quotient with fifty-three more bits above the line. -/
private theorem log2_div (hm : 2 ^ 52 ≤ m ∧ m < 2 ^ 53) (hn : 2 ^ 52 ≤ n ∧ n < 2 ^ 53) :
    52 ≤ (m <<< 53 / n).log2 ∧ (m <<< 53 / n).log2 ≤ 53 := by
  have hn0 : 0 < n := by omega
  rw [Nat.shiftLeft_eq]
  have hlo : 2 ^ 52 ≤ m * 2 ^ 53 / n := (Nat.le_div_iff_mul_le hn0).mpr (by omega)
  have hhi : m * 2 ^ 53 / n < 2 ^ 54 := (Nat.div_lt_iff_lt_mul hn0).mpr (by omega)
  have hne : m * 2 ^ 53 / n ≠ 0 := by omega
  exact ⟨(Nat.le_log2 hne).mpr hlo, Nat.lt_succ_iff.mp ((Nat.log2_lt hne).mpr hhi)⟩

/-- A quotient has fifty-three more bits above the line. -/
private theorem divCore_eq (hm : m.log2 = 52) (hn : n.log2 = 52) (he : -1000 ≤ d - e) :
    UnpackedFloat.divCore Format.binary64 m d n e =
      (m <<< 53 / n, d - e - 53, UnpackedFloat.accuracyOfFraction (m <<< 53 % n) n) := by
  have htarget : min (d - e) (Format.binary64.targetExponent
      (totalExponent m d - totalExponent n e)) = d - e - 53 := by
    have hbits : (Format.binary64.mantissaBits : ℤ) = 53 := rfl
    have hmin : Format.binary64.minExponent = -1074 := rfl
    rw [Format.targetExponent, totalExponent, totalExponent, hbits, hmin, hm, hn]
    omega
  have hshift : (d - e - (d - e - 53)).toNat = 53 := by omega
  unfold UnpackedFloat.divCore
  rw [htarget]
  dsimp only
  rw [hshift]

/-- Quotients are rounded. -/
theorem Represents.div (hu : Represents k u x) (hv : Represents l v y) (hy : y ≠ 0)
    (hkl : k + l ≤ 900) :
    Represents (k + l + 54) (UnpackedFloat.div Format.binary64 u v) (nearest (x / y)) := by
  cases hv with
  | zero t => exact absurd rfl hy
  | @finite t n e hn hnlo hnhi he =>
    cases hu with
    | zero s =>
      rw [zero_div, nearest_zero]
      exact .zero _
    | @finite s m d hm hmlo hmhi hd =>
      have hlog := log2_div ⟨hmlo, hmhi⟩ ⟨hnlo, hnhi⟩
      have hbits : 2 ^ 52 ≤ m <<< 53 / n := (Nat.le_log2 (by
        intro h
        rw [h] at hlog
        exact absurd hlog.1 (by decide))).mp hlog.1
      have hvalue : (m * 2 ^ d / (n * 2 ^ e) : ℚ) = (m <<< 53 : ℕ) / n * 2 ^ (d - e - 53) := by
        have hn' : (n : ℚ) ≠ 0 := Nat.cast_ne_zero.mpr hn.ne'
        rw [Nat.shiftLeft_eq, zpow_sub₀ (by norm_num), zpow_sub₀ (by norm_num)]
        push_cast
        field_simp
      have hcore := divCore_eq ((Nat.log2_eq_iff hm.ne').mpr ⟨hmlo, hmhi⟩)
        ((Nat.log2_eq_iff hn.ne').mpr ⟨hnlo, hnhi⟩) (d := d) (e := e) (by omega)
      rw [signed_div, nearest_signed, hvalue]
      unfold UnpackedFloat.div
      dsimp only
      rw [hcore]
      dsimp only
      generalize m <<< 53 = q at hbits hlog ⊢
      exact represents_round hbits (hasValue_quotient _ hn) (by omega) (by omega)

end Reckoner
