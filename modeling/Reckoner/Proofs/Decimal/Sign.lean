import Reckoner.Decimal.Binary64
import Reckoner.Engine.Simplify

/-!
# Signs of doubles

The parts read off the bits of a double are those that its arithmetic works on, so signs can
be followed through conversions, quotients and rounding. The double of a natural number has no
minus sign, nor has a quotient by a positive one, and the whole number next to a double that
is not below zero is natural.
-/

namespace Reckoner

open Float.Model (UnpackedFloat Format)
open Float.Model.UnpackedFloat (Sign)

/-! ## Parts of a double -/

/-- What the arithmetic of doubles works on. -/
def unpacked (x : Float) : UnpackedFloat := x.toModel.unpack

/-- The minus sign as a truth value. -/
def isMinus : Sign → Bool
  | .negative => true
  | .positive => false

/-- The parts of an unpacked double. -/
def Binary64.ofUnpacked : UnpackedFloat → Binary64
  | .notANumber => nan
  | .infinity s => infinite (isMinus s)
  | .zero s => finite (isMinus s) 0 (-1074)
  | .finite s m e _ => finite (isMinus s) m e

/-- The parts read off the bits are those that the arithmetic works on. -/
theorem Binary64.ofFloat_eq (x : Float) : ofFloat x = ofUnpacked (unpacked x) := by
  obtain ⟨⟨bits, hvalid⟩⟩ := x
  change ofBits bits.toNat = ofUnpacked (UnpackedFloat.unpack Format.binary64 bits.toBitVec)
  generalize hb : bits.toBitVec = b
  have hn : bits.toNat = b.toNat := by rw [← hb]; rfl
  rw [hn]
  -- the three fields of the word, as numbers
  have hsign : (@UnpackedFloat.unpackSign Format.binary64 b).toNat =
      b.toNat / 0x8000000000000000 % 2 := by
    change (BitVec.extractLsb 63 63 b).toNat = b.toNat / 0x8000000000000000 % 2
    simp [Nat.shiftRight_eq_div_pow]
  have hexponent : (@UnpackedFloat.unpackExponent Format.binary64 b).toNat =
      b.toNat / 0x10000000000000 % 0x800 := by
    simp [UnpackedFloat.unpackExponent, Nat.shiftRight_eq_div_pow]
  have hmantissa : (@UnpackedFloat.unpackMantissa Format.binary64 b).toNat =
      b.toNat % 0x10000000000000 := by
    simp [UnpackedFloat.unpackMantissa]
  have hminus : (b.toNat / 0x8000000000000000 % 2 == 1) =
      isMinus (Sign.ofBitVec (@UnpackedFloat.unpackSign Format.binary64 b)) := by
    rw [← hsign]
    generalize @UnpackedFloat.unpackSign Format.binary64 b = sign
    revert sign
    decide
  simp only [ofBits, hminus, ← hexponent, ← hmantissa]
  have hones : @UnpackedFloat.unpackExponent Format.binary64 b = -1#_ ↔
      (@UnpackedFloat.unpackExponent Format.binary64 b).toNat = 0x7FF :=
    ⟨fun h => by rw [h]; rfl, fun h => BitVec.eq_of_toNat_eq h⟩
  have hzeros : @UnpackedFloat.unpackExponent Format.binary64 b = 0#_ ↔
      (@UnpackedFloat.unpackExponent Format.binary64 b).toNat = 0 :=
    ⟨fun h => by rw [h]; rfl, fun h => BitVec.eq_of_toNat_eq h⟩
  have hnone : @UnpackedFloat.unpackMantissa Format.binary64 b = 0#_ ↔
      (@UnpackedFloat.unpackMantissa Format.binary64 b).toNat = 0 :=
    ⟨fun h => by rw [h]; rfl, fun h => BitVec.eq_of_toNat_eq h⟩
  unfold UnpackedFloat.unpack
  dsimp only
  -- infinity or no number, then zero or a small number, then all others
  by_cases he : @UnpackedFloat.unpackExponent Format.binary64 b = -1#_
  · rw [if_pos he, if_pos (hones.mp he)]
    by_cases hm : @UnpackedFloat.unpackMantissa Format.binary64 b = 0#_
    · rw [if_pos hm, if_pos (hnone.mp hm)]
      rfl
    · rw [if_neg hm, if_neg (mt hnone.mpr hm)]
      rfl
  · rw [if_neg he, if_neg (mt hones.mpr he)]
    by_cases hz : @UnpackedFloat.unpackExponent Format.binary64 b = 0#_
    · rw [if_pos hz, if_pos (hzeros.mp hz)]
      by_cases hm : @UnpackedFloat.unpackMantissa Format.binary64 b = 0#_
      · rw [dif_pos hm, hnone.mp hm]
        rfl
      · rw [dif_neg hm, hzeros.mp hz]
        rfl
    · have hfinite (s : Sign) (m : Nat) (e : Int) (hm : 0 < m) :
          ofUnpacked (.finite s m e hm) = finite (isMinus s) m e := rfl
      rw [if_neg hz, if_neg (mt hzeros.mpr hz), hfinite]
      congr 1
      rw [BitVec.toNat_append, ← Nat.shiftLeft_add_eq_or_of_lt (BitVec.isLt _)]
      rfl

/-! ## Doubles without a minus sign -/

/-- A number or an infinity that is not below zero, and not the negative zero. -/
inductive IsPlus : UnpackedFloat → Prop where
  | infinity : IsPlus (.infinity .positive)
  | zero : IsPlus (.zero .positive)
  | finite (m : Nat) (e : Int) (hm : 0 < m) : IsPlus (.finite .positive m e hm)

private theorem isPlus_dite {p : Prop} [Decidable p] {u : p → UnpackedFloat}
    {v : ¬ p → UnpackedFloat} (hu : ∀ h, IsPlus (u h)) (hv : ∀ h, IsPlus (v h)) :
    IsPlus (dite p u v) := by
  by_cases h : p
  · rw [dif_pos h]
    exact hu h
  · rw [dif_neg h]
    exact hv h

/-- Rounding a positive mantissa gives no negative number. -/
theorem isPlus_round {m : Nat} {e : Int} {a : Float.Model.UnpackedFloat.Accuracy} :
    IsPlus (UnpackedFloat.roundWithAccuracy Format.binary64 .positive m e a) := by
  unfold UnpackedFloat.roundWithAccuracy
  dsimp only
  exact isPlus_dite (fun _ => .zero) fun _ => .finite _ _ _

/-- The sign that was packed is unpacked again. -/
theorem unpackSign_packComponents {spec : Format} {s : Sign}
    {e : BitVec spec.exponentBits} {m : BitVec spec.mantissaBitsWithoutImplicit} :
    UnpackedFloat.unpackSign (UnpackedFloat.packComponents spec s e m) = s.toBitVec := by
  ext i hi
  change (BitVec.cast _ (BitVec.extractLsb _ _ (UnpackedFloat.packComponents spec s e m)))[i] = _
  have hlt : ¬ spec.mantissaBitsWithoutImplicit + spec.exponentBits + i <
      spec.mantissaBitsWithoutImplicit := by omega
  have hlt' : ¬ spec.mantissaBitsWithoutImplicit + spec.exponentBits + i -
      spec.mantissaBitsWithoutImplicit < spec.exponentBits := by omega
  have hi' : spec.mantissaBitsWithoutImplicit + spec.exponentBits + i -
      spec.mantissaBitsWithoutImplicit - spec.exponentBits = i := by omega
  simp [UnpackedFloat.packComponents, BitVec.getLsbD_append, hlt, hlt',
    hi', BitVec.getLsbD_eq_getElem hi]

/-- What is packed with a positive sign is unpacked as no negative number. -/
private theorem isPlus_unpack_components {spec : Format} {e : BitVec spec.exponentBits}
    {m : BitVec spec.mantissaBitsWithoutImplicit} (h : e = -1#_ → m = 0#_) :
    IsPlus (UnpackedFloat.unpack spec (UnpackedFloat.packComponents spec .positive e m)) := by
  have hs : Sign.ofBitVec (UnpackedFloat.unpackSign
      (UnpackedFloat.packComponents spec .positive e m)) = .positive := by
    rw [unpackSign_packComponents]
    rfl
  unfold UnpackedFloat.unpack
  dsimp only
  rw [hs]
  refine isPlus_dite (fun he => ?_) fun _ => isPlus_dite (fun _ => ?_) fun _ => .finite _ _ _
  · rw [UnpackedFloat.unpackExponent_packComponents] at he
    rw [UnpackedFloat.unpackMantissa_packComponents, if_pos (h he)]
    exact .infinity
  · exact isPlus_dite (fun _ => .zero) fun _ => .finite _ _ _

/-- Packing loses no sign and makes no number into what is not one. -/
theorem isPlus_unpack_pack {u : UnpackedFloat} (h : IsPlus u) :
    IsPlus (Float.Model.pack u).unpack := by
  change IsPlus (UnpackedFloat.unpack Format.binary64 (UnpackedFloat.pack Format.binary64 u))
  cases h with
  | infinity => exact isPlus_unpack_components fun _ => rfl
  | zero => exact isPlus_unpack_components fun _ => rfl
  | finite m e hm =>
    unfold UnpackedFloat.pack
    dsimp only
    split
    · exact isPlus_unpack_components fun _ => rfl
    · rename_i hsmall
      have hne (n : Nat) (hn : ¬ 2 ^ 11 ≤ n + 1) : BitVec.ofNat 11 n ≠ -1#11 := by
        intro heq
        have htoNat : n % 2 ^ 11 = 2047 := congrArg BitVec.toNat heq
        omega
      split
      · exact isPlus_unpack_components fun heq => absurd heq (hne _ hsmall)
      · exact isPlus_unpack_components fun heq => absurd heq (by decide)

/-- A double that is made of a number without a minus has none. -/
theorem isPlus_ofModel {u : UnpackedFloat} (h : IsPlus u) :
    IsPlus (unpacked (Float.ofModel (Float.Model.pack u))) :=
  isPlus_unpack_pack h

/-- A natural number has no minus. -/
theorem isPlus_normalize (n : Nat) :
    IsPlus (UnpackedFloat.normalize Format.binary64 n 0 .positive) := by
  unfold UnpackedFloat.normalize
  split
  · rename_i hlt
    rw [Int.compare_eq_lt] at hlt
    omega
  · exact .zero
  · exact isPlus_round

/-- A number without a minus sign that is neither zero nor infinite. -/
inductive IsProper : UnpackedFloat → Prop where
  | finite (m : Nat) (e : Int) (hm : 0 < m) : IsProper (.finite .positive m e hm)

/-- A product with a proper factor has no minus if the other factor has none. -/
theorem isPlus_mul {u v : UnpackedFloat} (hu : IsPlus u) (hv : IsProper v) :
    IsPlus (UnpackedFloat.mul Format.binary64 u v) := by
  cases hv with
  | finite =>
    cases hu with
    | infinity => exact .infinity
    | zero => exact .zero
    | finite => exact isPlus_round

/-- A quotient by a proper divisor has no minus if the dividend has none. -/
theorem isPlus_div {u v : UnpackedFloat} (hu : IsPlus u) (hv : IsProper v) :
    IsPlus (UnpackedFloat.div Format.binary64 u v) := by
  cases hv with
  | finite =>
    cases hu with
    | infinity => exact .infinity
    | zero => exact .zero
    | finite => exact isPlus_round

instance : DecidablePred IsProper := fun u =>
  match u with
  | .finite .positive m e hm => isTrue (.finite m e hm)
  | .finite .negative _ _ _ => isFalse nofun
  | .notANumber | .infinity _ | .zero _ => isFalse nofun

/-- The table holds proper powers of ten. -/
private theorem isProper_powerOfTen (i : Fin Float.exactlyRepresentablePowersOfTen.size) :
    IsProper (unpacked Float.exactlyRepresentablePowersOfTen[i]) := by
  revert i
  decide +kernel

/-- A decimal without a minus is read as a double without one. -/
private theorem isPlus_scaled (n : Nat) (e : Int) :
    IsPlus (UnpackedFloat.ofScientific Format.binary64 n e) := by
  unfold UnpackedFloat.ofScientific
  refine isPlus_dite (fun _ => .zero) fun _ => ?_
  refine iteInduction (fun _ => .infinity) fun _ => ?_
  refine iteInduction (fun _ => .zero) fun _ => ?_
  refine iteInduction (fun _ => ?_) fun _ => ?_
  · exact isPlus_mul (.finite _ _ _) (.finite _ _ _)
  · exact isPlus_div (.finite _ _ _) (.finite _ _ _)

/-- Digits with a power of ten have no minus sign. -/
theorem isPlus_ofScientific (n : Nat) (negative : Bool) (e : Nat) :
    IsPlus (unpacked (Float.ofScientific n negative e)) := by
  unfold Float.ofScientific
  split
  · rename_i h
    have hnat : IsPlus (unpacked n.toUInt64.toFloat) := isPlus_ofModel (isPlus_normalize _)
    have hpower := isProper_powerOfTen ⟨e, Nat.lt_succ_of_le h.2⟩
    dsimp only
    split
    · exact isPlus_ofModel (isPlus_div hnat hpower)
    · exact isPlus_ofModel (isPlus_mul hnat hpower)
  · exact isPlus_ofModel (isPlus_scaled _ _)

/-- The double of a natural number has no minus sign. -/
theorem isPlus_ofNat (n : Nat) : IsPlus (unpacked (Float.ofNat n)) :=
  isPlus_ofScientific n false 0

/-- A quotient of natural numbers has no minus sign, where the divisor is one. -/
theorem isPlus_toFloat {q : Fraction} (hn : 0 ≤ q.num) (hd : q.den = 1) :
    IsPlus (unpacked q.toFloat) := by
  obtain ⟨n, hnum⟩ := Int.eq_ofNat_of_zero_le hn
  have hone : IsProper (unpacked (Float.ofInt 1)) := by decide +kernel
  rw [Fraction.toFloat, hnum, hd]
  exact isPlus_ofModel (isPlus_div (isPlus_ofNat n) hone)

/-! ## Comparison with zero -/

/-- Doubles are compared as their unpacked forms are. -/
theorem le_iff_unpacked {x y : Float} :
    x ≤ y ↔ UnpackedFloat.le (unpacked x) (unpacked y) = true :=
  decide_eq_true_iff

/-- Doubles are compared strictly as their unpacked forms are. -/
theorem lt_iff_unpacked {x y : Float} :
    x < y ↔ UnpackedFloat.lt (unpacked x) (unpacked y) = true :=
  decide_eq_true_iff

private theorem unpacked_zero : unpacked 0.0 = .zero .positive := by
  have hz : (match unpacked 0.0 with | .zero .positive => true | _ => false) = true := by
    decide +kernel
  split at hz
  · assumption
  · cases hz

/-- A double without a minus is not below zero. -/
theorem nonneg_of_isPlus {x : Float} (h : IsPlus (unpacked x)) : 0.0 ≤ x := by
  rw [le_iff_unpacked, unpacked_zero]
  generalize unpacked x = u at h ⊢
  cases h <;> rfl

/-- No double without a minus is below zero. -/
theorem not_lt_zero_of_isPlus {x : Float} (h : IsPlus (unpacked x)) : ¬ x < 0.0 := by
  rw [lt_iff_unpacked, unpacked_zero]
  generalize unpacked x = u at h ⊢
  cases h <;> exact Bool.false_ne_true

/-- Only zero has a minus sign without being below zero. -/
theorem unpacked_of_not_lt_zero {x : Float} (h : ¬ x < 0.0) :
    unpacked x = .notANumber ∨ unpacked x = .zero .negative ∨ IsPlus (unpacked x) := by
  rw [lt_iff_unpacked, unpacked_zero] at h
  generalize unpacked x = u at h ⊢
  cases u with
  | notANumber => exact .inl rfl
  | infinity s =>
    cases s with
    | positive => exact .inr (.inr .infinity)
    | negative => exact absurd rfl h
  | zero s =>
    cases s with
    | positive => exact .inr (.inr .zero)
    | negative => exact .inr (.inl rfl)
  | finite s m e hm =>
    cases s with
    | positive => exact .inr (.inr (.finite m e hm))
    | negative => exact absurd rfl h

/-! ## Rounding to whole numbers -/

/-- The whole value of a double without a minus is not negative. -/
theorem wholeValue_nonneg {x : Float} (h : IsPlus (unpacked x)) : 0 ≤ wholeValue x := by
  unfold wholeValue
  rw [Binary64.ofFloat_eq]
  generalize unpacked x = u at h ⊢
  cases h with
  | infinity => exact Int.le_refl 0
  | zero => exact Int.natCast_nonneg _
  | finite => exact Int.natCast_nonneg _

/-- A double without a minus sign is rounded to one without a minus sign. -/
theorem isPlus_roundHalfAway {x : Float} (h : IsPlus (unpacked x)) :
    IsPlus (unpacked (roundHalfAway x)) := by
  have hparts : Binary64.ofFloat x = .infinite false ∨
      ∃ m e, Binary64.ofFloat x = .finite false m e := by
    rw [Binary64.ofFloat_eq]
    generalize unpacked x = u at h
    cases h with
    | infinity => exact .inl rfl
    | zero => exact .inr ⟨_, _, rfl⟩
    | finite => exact .inr ⟨_, _, rfl⟩
  rcases hparts with hx | ⟨m, e, hx⟩
  · simpa only [roundHalfAway, roundWhole, hx] using h
  · simp only [roundHalfAway, roundWhole, hx, Bool.false_eq_true, if_false]
    split
    · exact h
    · exact isPlus_ofNat _

/-- Negative zero is rounded to the negative of zero. -/
private theorem roundHalfAway_negative_zero {x : Float} (h : unpacked x = .zero .negative) :
    roundHalfAway x = -(Float.ofNat 0) := by
  have hunit (k : Nat) : ¬ Nat.pow 2 k ≤ 2 * (0 % Nat.pow 2 k) := by
    have hpos : 0 < Nat.pow 2 k := Nat.pow_pos Nat.two_pos
    rw [Nat.zero_mod]
    omega
  have hparts : Binary64.ofUnpacked (.zero .negative) = .finite true 0 (-1074) := rfl
  rw [roundHalfAway, roundWhole, Binary64.ofFloat_eq, h, hparts]
  simp only [if_true]
  rw [if_neg (by decide), if_neg (hunit _), Nat.zero_div]

/-- The whole number next to a double that is not below zero is natural. -/
theorem nearWhole?_nonneg {x : Float} {n : Int} (h : nearWhole? x = some n) (hx : ¬ x < 0.0) :
    0 ≤ n := by
  unfold nearWhole? at h
  dsimp only at h
  split at h
  · cases h
    rcases unpacked_of_not_lt_zero hx with hu | hu | hu
    · have hround : roundHalfAway x = x := by
        rw [roundHalfAway, roundWhole, Binary64.ofFloat_eq, hu]
        rfl
      rw [hround, wholeValue, Binary64.ofFloat_eq, hu]
      exact Int.le_refl 0
    · rw [roundHalfAway_negative_zero hu]
      have hzero : wholeValue (-(Float.ofNat 0)) = 0 := by decide +kernel
      exact Int.le_of_eq hzero.symm
    · exact wholeValue_nonneg (isPlus_roundHalfAway hu)
  · cases h

end Reckoner
