import Reckoner.Proofs.Engine.Comparison

/-!
# Whole numbers next to doubles

A double is replaced by a whole number next to its value, which is exact: a double with digits
behind the point has few digits before it. So is the distance of the two, and a double counts as
whole exactly if its value is closer to a whole number than the tolerance.
-/

namespace Reckoner

open Float.Model (UnpackedFloat Format)
open Float.Model.UnpackedFloat (Sign)
open Rounding

variable {k : ℕ} {x : Float} {q : ℚ} {z : ℤ}

/-! ## Rounding rules -/

/-- The nearest whole number; a half goes away from zero. -/
def Rounding.halfAway (q : ℚ) : ℤ := if q < 0 then -⌊1 / 2 - q⌋ else ⌊q + 1 / 2⌋

/-- The rule gives the whole number that the function gives. -/
structure Follows (rule : RoundingRule) (f : ℚ → ℤ) : Prop where
  /-- Whole numbers are kept. -/
  whole : ∀ z : ℤ, f z = z
  /-- A whole part and a part of one are replaced. -/
  part : ∀ (s : Sign) {w r u : ℕ}, r < u →
    s.apply (rule (isMinus s) w r u : ℤ) = f (signed s (w + r / u))
  /-- The whole number is one of the two neighbours. -/
  le : ∀ (negative : Bool) (w r u : ℕ), rule negative w r u ≤ w + 1

variable {w r u : ℕ}

/-- A rest below the unit is a part of one, and at least a half exactly if twice the rest is a unit.
-/
private theorem part_bounds (h : r < u) : (0 : ℚ) ≤ r / u ∧ (r / u : ℚ) < 1 ∧
    ((r / u : ℚ) = 0 ↔ r = 0) ∧ (1 / 2 ≤ (r / u : ℚ) ↔ u ≤ 2 * r) := by
  have hu : (0 : ℚ) < u := Nat.cast_pos.mpr (by omega)
  have hr : (r : ℚ) < u := Nat.cast_lt.mpr h
  refine ⟨by positivity, (div_lt_one hu).mpr hr, ?_, ?_⟩
  · rw [div_eq_zero_iff, Nat.cast_eq_zero, Nat.cast_eq_zero]
    omega
  · rw [div_le_div_iff₀ (by norm_num) hu, one_mul]
    norm_cast
    omega

/-- Toward negative infinity, a part below zero counts as a whole. -/
theorem follows_floor : Follows
    (fun negative whole rest _ => if negative && rest != 0 then whole + 1 else whole)
    Int.floor where
  whole z := Int.floor_intCast z
  part s {w r u} h := by
    obtain ⟨hnonneg, hlt, hzero, -⟩ := part_bounds h
    generalize (r / u : ℚ) = δ at *
    cases s with
    | positive =>
      change (w : ℤ) = ⌊(w + δ : ℚ)⌋
      rw [eq_comm, Int.floor_eq_iff, Int.cast_natCast]
      constructor <;> linarith
    | negative =>
      change -((if r != 0 then w + 1 else w : ℕ) : ℤ) = ⌊-(w + δ : ℚ)⌋
      rw [eq_comm, Int.floor_eq_iff]
      rcases eq_or_ne r 0 with hr | hr
      · rw [if_neg (by simp [hr]), hzero.mpr hr]
        push_cast
        constructor <;> linarith
      · have hpos : 0 < δ := hnonneg.lt_of_ne' (mt hzero.mp hr)
        rw [if_pos (by simp [hr])]
        push_cast
        constructor <;> linarith
  le negative w r u := by
    split <;> omega

/-- Toward positive infinity, a part above zero counts as a whole. -/
theorem follows_ceiling : Follows
    (fun negative whole rest _ => if !negative && rest != 0 then whole + 1 else whole)
    Int.ceil where
  whole z := Int.ceil_intCast z
  part s {w r u} h := by
    obtain ⟨hnonneg, hlt, hzero, -⟩ := part_bounds h
    generalize (r / u : ℚ) = δ at *
    cases s with
    | positive =>
      change ((if r != 0 then w + 1 else w : ℕ) : ℤ) = ⌈(w + δ : ℚ)⌉
      rw [eq_comm, Int.ceil_eq_iff]
      rcases eq_or_ne r 0 with hr | hr
      · rw [if_neg (by simp [hr]), hzero.mpr hr]
        push_cast
        constructor <;> linarith
      · have hpos : 0 < δ := hnonneg.lt_of_ne' (mt hzero.mp hr)
        rw [if_pos (by simp [hr])]
        push_cast
        constructor <;> linarith
    | negative =>
      change -(w : ℤ) = ⌈-(w + δ : ℚ)⌉
      rw [eq_comm, Int.ceil_eq_iff]
      push_cast
      constructor <;> linarith
  le negative w r u := by
    split <;> omega

/-- An integer is rounded to itself. -/
theorem halfAway_intCast (z : ℤ) : halfAway z = z := by
  unfold halfAway
  split
  · rw [neg_eq_iff_eq_neg, Int.floor_eq_iff]
    push_cast
    constructor <;> linarith
  · rw [Int.floor_eq_iff]
    constructor <;> linarith

/-- From a half on, a part counts as a whole on both sides of zero. -/
theorem follows_halfAway : Follows
    (fun _ whole rest unit => if unit ≤ 2 * rest then whole + 1 else whole) halfAway where
  whole := halfAway_intCast
  part s {w r u} h := by
    obtain ⟨hnonneg, hlt, -, hhalf⟩ := part_bounds h
    generalize (r / u : ℚ) = δ at *
    have hw : (0 : ℚ) ≤ w := w.cast_nonneg
    have hpositive : ((if u ≤ 2 * r then w + 1 else w : ℕ) : ℤ) = ⌊(w + δ + 1 / 2 : ℚ)⌋ := by
      rw [eq_comm, Int.floor_eq_iff]
      by_cases hr : u ≤ 2 * r
      · have hle := hhalf.mpr hr
        rw [if_pos hr]
        push_cast
        constructor <;> linarith
      · have hle := lt_of_not_ge (mt hhalf.mp hr)
        rw [if_neg hr]
        push_cast
        constructor <;> linarith
    cases s with
    | positive =>
      change ((if u ≤ 2 * r then w + 1 else w : ℕ) : ℤ) = halfAway (w + δ)
      rw [hpositive, halfAway, if_neg (by linarith)]
    | negative =>
      change -((if u ≤ 2 * r then w + 1 else w : ℕ) : ℤ) = halfAway (-(w + δ))
      rw [hpositive, halfAway]
      split
      · congr 2
        ring
      · -- only zero has the other sign as well
        have hsum : (w : ℚ) + δ = 0 := by linarith
        rw [hsum]
        norm_num
  le negative w r u := by
    split <;> omega

/-- A mantissa with bits behind the point is a whole part and a part of one. -/
private theorem value_parts (m j : ℕ) :
    (m * 2 ^ (-j : ℤ) : ℚ) = (m / Nat.pow 2 j : ℕ) + (m % Nat.pow 2 j : ℕ) / (Nat.pow 2 j : ℕ) := by
  have hpow : ((Nat.pow 2 j : ℕ) : ℚ) = 2 ^ j := by norm_num
  have hunit : (2 : ℚ) ^ j ≠ 0 := by positivity
  have hm : ((Nat.pow 2 j * (m / Nat.pow 2 j) + m % Nat.pow 2 j : ℕ) : ℚ) = m :=
    congrArg Nat.cast (Nat.div_add_mod m (Nat.pow 2 j))
  rw [Nat.cast_add, Nat.cast_mul, hpow] at hm
  rw [hpow, ← hm, zpow_neg, zpow_natCast]
  field_simp

/-- A mantissa without bits behind the point is a whole number. -/
private theorem signed_whole (s : Sign) (m j : ℕ) :
    signed s (m * 2 ^ (j : ℤ) : ℚ) = (s.apply ((m * 2 ^ j : ℕ) : ℤ) : ℤ) := by
  rw [← signed_natCast, zpow_natCast]
  push_cast
  rfl

/-- The values of doubles are replaced as the rule says. -/
theorem represents_roundWhole {rule : RoundingRule} {f : ℚ → ℤ} (hf : Follows rule f)
    (h : Represents k (unpacked x) q) :
    Represents (max k 160) (unpacked (roundWhole rule x)) (f q) := by
  have hsmall {s : Sign} {m j : ℕ} (hm : m < 2 ^ 53) (hj : 0 < j)
      (hx : Binary64.ofFloat x = .finite (isMinus s) m (-j)) :
      Represents (max k 160) (unpacked (roundWhole rule x)) (f (signed s (m * 2 ^ (-j : ℤ)))) := by
    have hunit : 0 < Nat.pow 2 j := Nat.pow_pos Nat.two_pos
    have hwhole : m / Nat.pow 2 j ≤ m / 1 := Nat.div_le_div_left hunit Nat.one_pos
    have hle := hf.le (isMinus s) (m / Nat.pow 2 j) (m % Nat.pow 2 j) (Nat.pow 2 j)
    have hpart := hf.part s (w := m / Nat.pow 2 j) (Nat.mod_lt m hunit)
    rw [Nat.div_one] at hwhole
    rw [value_parts, ← hpart]
    unfold roundWhole
    rw [hx]
    dsimp only
    rw [if_neg (by omega), Int.natAbs_neg, Int.natAbs_natCast]
    generalize rule (isMinus s) (m / Nat.pow 2 j) (m % Nat.pow 2 j) (Nat.pow 2 j) = n at hle ⊢
    have hmagnitude := represents_ofNat (n := n) (by omega)
    rw [← Int.cast_natCast, nearest_intCast (by omega)] at hmagnitude
    rw [← signed_natCast]
    cases s with
    | positive => exact hmagnitude.mono (by omega)
    | negative => exact (hmagnitude.neg.ofModel (by omega)).mono (by omega)
  generalize hu : unpacked x = u at h
  have hparts : Binary64.ofFloat x = Binary64.ofUnpacked u := by rw [Binary64.ofFloat_eq, hu]
  cases h with
  | zero s =>
    have hzero : signed s ((0 : ℕ) * 2 ^ (-(1074 : ℕ) : ℤ)) = 0 := by cases s <;> simp [signed]
    rw [← hzero]
    exact hsmall (by decide) (by decide) hparts
  | @finite s m e hm hlo hhi he =>
    by_cases hwhole : 0 ≤ e
    · obtain ⟨j, rfl⟩ := Int.eq_ofNat_of_zero_le hwhole
      have hself : roundWhole rule x = x := by
        unfold roundWhole
        rw [hparts]
        exact if_pos hwhole
      rw [hself, hu, signed_whole, hf.whole, ← signed_whole]
      exact .finite s hm hlo hhi (by omega)
    · obtain ⟨j, rfl⟩ : ∃ j : ℕ, e = -j := ⟨e.natAbs, by omega⟩
      exact hsmall hhi (by omega) hparts

/-- A whole number has nothing behind the point. -/
private theorem apply_of_parts {s : Sign} (h : r < u) (hz : signed s (w + r / u) = (z : ℚ)) :
    s.apply (w : ℤ) = z := by
  obtain ⟨hnonneg, hlt, hzero, -⟩ := part_bounds h
  generalize (r / u : ℚ) = δ at *
  obtain ⟨i, hi⟩ : ∃ i : ℤ, (w + δ : ℚ) = i := by
    cases s with
    | positive => exact ⟨z, hz⟩
    | negative => exact ⟨-z, by rw [Int.cast_neg, ← hz, signed, neg_neg]⟩
  have hwi : (w : ℤ) = i := by
    have hlo : ((w : ℤ) : ℚ) < (i + 1 : ℤ) := by
      push_cast
      linarith
    have hhi : ((i : ℤ) : ℚ) < ((w + 1 : ℤ) : ℚ) := by
      push_cast
      linarith
    have hlo := Int.cast_lt.mp hlo
    have hhi := Int.cast_lt.mp hhi
    omega
  rw [hi, ← hwi, Int.cast_natCast, signed_natCast] at hz
  exact_mod_cast hz

/-- A double with a whole value is read as it. -/
theorem wholeValue_eq (h : Represents k (unpacked x) q) (hq : q = z) : wholeValue x = z := by
  have hsign (s : Sign) (n : ℕ) : (if isMinus s then -(n : ℤ) else n) = s.apply (n : ℤ) := by
    cases s <;> rfl
  have hsmall {s : Sign} {m j : ℕ} (hj : 0 < j)
      (hx : Binary64.ofFloat x = .finite (isMinus s) m (-j))
      (hz : signed s (m * 2 ^ (-j : ℤ)) = (z : ℚ)) : wholeValue x = z := by
    rw [value_parts] at hz
    unfold wholeValue
    rw [hx]
    dsimp only
    rw [hsign, if_neg (by omega), Int.natAbs_neg, Int.natAbs_natCast]
    exact apply_of_parts (Nat.mod_lt m (Nat.pow_pos Nat.two_pos)) hz
  generalize hu : unpacked x = u at h
  have hparts : Binary64.ofFloat x = Binary64.ofUnpacked u := by rw [Binary64.ofFloat_eq, hu]
  cases h with
  | zero s =>
    have hzero : signed s ((0 : ℕ) * 2 ^ (-(1074 : ℕ) : ℤ)) = (z : ℚ) := by
      rw [← hq]
      cases s <;> simp [signed]
    exact hsmall (by decide) hparts hzero
  | @finite s m e hm hlo hhi he =>
    by_cases hwhole : 0 ≤ e
    · obtain ⟨j, rfl⟩ := Int.eq_ofNat_of_zero_le hwhole
      unfold wholeValue
      rw [hparts]
      change (if isMinus s then _ else _) = z
      rw [signed_whole] at hq
      rw [if_pos hwhole, hsign, Int.natAbs_natCast]
      exact Int.cast_injective hq
    · obtain ⟨j, rfl⟩ : ∃ j : ℕ, e = -j := ⟨e.natAbs, by omega⟩
      exact hsmall (by omega) hparts hq

/-! ## Doubles that count as whole -/

/-- The value of the tolerance. -/
def tolerance : ℚ := 4951760157141521 / 2 ^ 92

/-- The number is closer to the whole number than the tolerance, and the whole number is below
`10 ^ 15`. -/
def Near (q : ℚ) (n : ℤ) : Prop := |q - n| < tolerance ∧ |n| < 10 ^ 15

theorem tolerance_pos : 0 < tolerance := by
  norm_num [tolerance]

/-- The tolerance as a double is below its decimal value. -/
theorem tolerance_lt : tolerance < 1 / 10 ^ 12 := by
  norm_num [tolerance]

/-- No whole number is nearer. -/
theorem halfAway_error (q : ℚ) : |q - halfAway q| ≤ 1 / 2 := by
  unfold halfAway
  split
  · have hle := Int.floor_le (1 / 2 - q)
    have hlt := Int.lt_floor_add_one (1 / 2 - q)
    rw [abs_le]
    push_cast
    constructor <;> linarith
  · have hle := Int.floor_le (q + 1 / 2)
    have hlt := Int.lt_floor_add_one (q + 1 / 2)
    rw [abs_le]
    constructor <;> linarith

/-- A whole number that is less than a half away is the nearest one. -/
theorem eq_halfAway {n : ℤ} (h : |q - n| < 1 / 2) : halfAway q = n := by
  have hround := abs_le.mp (halfAway_error q)
  rw [abs_lt] at h
  have hlo : ((halfAway q : ℤ) : ℚ) < (n + 1 : ℤ) := by
    push_cast
    linarith
  have hhi : ((n : ℤ) : ℚ) < (halfAway q + 1 : ℤ) := by
    push_cast
    linarith
  have hlo := Int.cast_lt.mp hlo
  have hhi := Int.cast_lt.mp hhi
  omega

/-- The whole number that is near is the rounded one. -/
theorem Near.eq_halfAway {n : ℤ} (h : Near q n) : halfAway q = n :=
  Reckoner.eq_halfAway (h.1.trans (tolerance_lt.trans (by norm_num)))

/-- The tolerance as a double. -/
private theorem represents_tolerance : Represents 92 (unpacked wholeTolerance) tolerance := by
  have hparts : unpacked wholeTolerance =
      .finite .positive 4951760157141521 (-92) (by decide) := rfl
  have hvalue : tolerance = signed .positive ((4951760157141521 : ℕ) * 2 ^ (-92 : ℤ)) := by
    norm_num [signed, tolerance]
  rw [hparts, hvalue]
  exact .finite _ _ (by decide) (by decide) (by decide)

/-- The bound of near whole numbers as a double. -/
private theorem represents_bound : Represents 3 (unpacked 1e15) (10 ^ 15) := by
  have hparts : unpacked 1e15 = .finite .positive 8000000000000000 (-3) (by decide) := rfl
  have hvalue : (10 : ℚ) ^ 15 = signed .positive ((8000000000000000 : ℕ) * 2 ^ (-3 : ℤ)) := by
    norm_num [signed]
  rw [hparts, hvalue]
  exact .finite _ _ (by decide) (by decide) (by decide)

/-- The distance to the nearest whole number needs no more bits than the number. -/
theorem Represents.nearest_distance {u : UnpackedFloat} (h : Represents k u q) :
    nearest (q - halfAway q) = q - halfAway q := by
  by_cases hsmall : |q| < 1 / 2
  · have hzero : halfAway q = 0 := eq_halfAway (by rwa [Int.cast_zero, sub_zero])
    rw [hzero, Int.cast_zero, sub_zero]
    exact h.nearest_eq
  cases h with
  | zero s => exact absurd (by norm_num) hsmall
  | @finite s m e hm hlo hhi he =>
    have hm' : (m : ℚ) < 2 ^ 53 := by exact_mod_cast hhi
    by_cases hwhole : 0 ≤ e
    · obtain ⟨j, rfl⟩ := Int.eq_ofNat_of_zero_le hwhole
      rw [signed_whole, halfAway_intCast, sub_self, nearest_zero]
    · obtain ⟨j, rfl⟩ : ∃ j : ℕ, e = -j := ⟨e.natAbs, by omega⟩
      have hpow : (0 : ℚ) < 2 ^ j := by positivity
      -- half of a whole has at most fifty-three bits behind the point
      have hj : j ≤ 53 := by
        by_contra hj
        have hbig : (2 : ℚ) ^ 54 ≤ 2 ^ j := pow_le_pow_right₀ (by norm_num) (by omega)
        refine hsmall ?_
        rw [abs_signed s (mul_nonneg m.cast_nonneg (zpow_nonneg (by norm_num) _)), zpow_neg,
          zpow_natCast, ← div_eq_mul_inv, div_lt_iff₀ hpow]
        linarith
      have herror := halfAway_error (signed s (m * 2 ^ (-j : ℤ)))
      generalize halfAway (signed s (m * 2 ^ (-j : ℤ))) = n at herror ⊢
      have hdistance : signed s (m * 2 ^ (-j : ℤ)) - n =
          (s.apply (m : ℤ) - n * 2 ^ j : ℤ) * 2 ^ (-j : ℤ) := by
        rw [signed_mul_right, signed_natCast, zpow_neg, zpow_natCast]
        push_cast
        field_simp
      rw [hdistance] at herror ⊢
      refine nearest_eq_self ?_
      rw [abs_mul, zpow_neg, zpow_natCast, abs_inv, abs_of_pos hpow, ← div_eq_mul_inv,
        div_le_iff₀ hpow] at herror
      have hle : (2 : ℚ) ^ j ≤ 2 ^ 53 := pow_le_pow_right₀ (by norm_num) hj
      have hlt : |((s.apply (m : ℤ) - n * 2 ^ j : ℤ) : ℚ)| < 2 ^ 53 := by linarith
      exact_mod_cast hlt

/-- The magnitude of a double represents the magnitude of the value. -/
private theorem represents_abs (h : Represents k (unpacked x) q) (hk : k ≤ 971) :
    Represents k (unpacked x.abs) |q| :=
  h.abs.ofModel hk

/-- A double counts as the whole number that its value is near to. -/
theorem nearWhole?_eq_some_iff {n : ℤ} (h : Represents k (unpacked x) q) (hk : k ≤ 400) :
    nearWhole? x = some n ↔ Near q n := by
  have hround := represents_roundWhole follows_halfAway h
  have hdistance := (h.sub hround (by omega)).ofModel (by omega)
  rw [h.nearest_distance] at hdistance
  have hclose : (x - roundHalfAway x).abs < wholeTolerance ↔ |q - halfAway q| < tolerance :=
    (represents_abs hdistance (by omega)).lt_iff represents_tolerance
  have hbelow : (roundHalfAway x).abs < 1e15 ↔ |((halfAway q : ℤ) : ℚ)| < 10 ^ 15 :=
    (represents_abs hround (by omega)).lt_iff represents_bound
  have hbelow' : |((halfAway q : ℤ) : ℚ)| < 10 ^ 15 ↔ |halfAway q| < 10 ^ 15 := by
    rw [← Int.cast_abs]
    norm_cast
  have hvalue : wholeValue (roundHalfAway x) = halfAway q := wholeValue_eq hround rfl
  unfold nearWhole?
  dsimp only
  rw [hvalue]
  constructor
  · intro h
    split at h
    · rename_i hnear
      cases h
      rw [Bool.and_eq_true, decide_eq_true_iff, decide_eq_true_iff] at hnear
      exact ⟨hclose.mp hnear.1, hbelow'.mp (hbelow.mp hnear.2)⟩
    · cases h
  · intro hnear
    obtain rfl := hnear.eq_halfAway
    rw [if_pos]
    rw [Bool.and_eq_true, decide_eq_true_iff, decide_eq_true_iff]
    exact ⟨hclose.mpr hnear.1, hbelow.mpr (hbelow'.mpr hnear.2)⟩

end Reckoner
