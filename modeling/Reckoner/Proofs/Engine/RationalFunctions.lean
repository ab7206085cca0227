import Mathlib.Data.Sign.Basic
import Reckoner.Proofs.Engine.WholeNumbers

/-!
# Functions of fractions

Absolute value, sign, the whole numbers next to a number, and the greatest and the least of several
take fractions to fractions. Doubles compute them without an error: what they give for the doubles
of fractions is the function of the values of these doubles.
-/

namespace Reckoner

open Float.Model (UnpackedFloat)
open Float.Model.UnpackedFloat (Sign)
open Rounding

namespace Numeric

/-- The functions that take fractions to fractions. -/
inductive RationalFunction where
  | abs
  | sign
  | floor
  | ceiling
  | round
  | max
  | min
  deriving DecidableEq, Repr

namespace RationalFunction

/-- The name in small letters. -/
def name : RationalFunction → String
  | abs => "abs"
  | sign => "sign"
  | floor => "floor"
  | ceiling => "ceiling"
  | round => "round"
  | max => "max"
  | min => "min"

/-- The function can be called with so many arguments. -/
def Accepts : RationalFunction → ℕ → Prop
  | max, n => 0 < n
  | min, n => 0 < n
  | _, n => n = 1

/-- The value of the function. -/
inductive Gives : RationalFunction → List ℚ → ℚ → Prop
  | abs (q : ℚ) : Gives abs [q] |q|
  | sign (q : ℚ) : Gives sign [q] (SignType.sign q)
  | floor (q : ℚ) : Gives floor [q] ⌊q⌋
  | ceiling (q : ℚ) : Gives ceiling [q] ⌈q⌉
  | round (q : ℚ) : Gives round [q] (halfAway q)
  | max {q : ℚ} {qs : List ℚ} : q ∈ qs → (∀ p ∈ qs, p ≤ q) → Gives max qs q
  | min {q : ℚ} {qs : List ℚ} : q ∈ qs → (∀ p ∈ qs, q ≤ p) → Gives min qs q

variable {f : RationalFunction} {qs : List ℚ} {y z : ℚ}

/-- A function has one value. -/
theorem Gives.unique (hy : f.Gives qs y) (hz : f.Gives qs z) : y = z := by
  cases hy with
  | max hmem hle =>
    cases hz with
    | max hmem' hle' => exact le_antisymm (hle' _ hmem) (hle _ hmem')
  | min hmem hle =>
    cases hz with
    | min hmem' hle' => exact le_antisymm (hle _ hmem') (hle' _ hmem)
  | abs | sign | floor | ceiling | round =>
    cases hz
    rfl

end RationalFunction

/-! ## The greatest and the least -/

variable {k : ℕ} {a b x : Float} {p q : ℚ}

/-- The function takes one of two doubles, and of their values one that none of them exceeds. -/
def Chooses (k : ℕ) (better : Float → Float → Float) (R : ℚ → ℚ → Prop) : Prop :=
  ∀ {a b : Float} {p q : ℚ}, Represents k (unpacked a) p → Represents k (unpacked b) q →
    ∃ r, Represents k (unpacked (better a b)) r ∧ (r = p ∨ r = q) ∧ R p r ∧ R q r

/-- The larger of two doubles is the one with the larger value. -/
theorem chooses_larger : Chooses k larger (· ≤ ·) := by
  intro a b p q ha hb
  unfold larger
  split
  · rename_i hlt
    exact ⟨q, hb, .inr rfl, ((ha.lt_iff hb).mp hlt).le, le_rfl⟩
  · rename_i hle
    exact ⟨p, ha, .inl rfl, le_rfl, not_lt.mp (mt (ha.lt_iff hb).mpr hle)⟩

/-- The smaller of two doubles is the one with the smaller value. -/
theorem chooses_smaller : Chooses k smaller (· ≥ ·) := by
  intro a b p q ha hb
  unfold smaller
  split
  · rename_i hlt
    exact ⟨q, hb, .inr rfl, ((hb.lt_iff ha).mp hlt).le, le_rfl⟩
  · rename_i hle
    exact ⟨p, ha, .inl rfl, le_rfl, not_lt.mp (mt (hb.lt_iff ha).mpr hle)⟩

/-- Infinity is above every number, so the first argument takes its place. -/
theorem larger_infinity (h : Represents k (unpacked x) q) : larger (-infinity) x = x := by
  have hstart : unpacked (-infinity) = .infinity .negative := rfl
  refine if_pos ?_
  rw [lt_iff_unpacked, UnpackedFloat.lt, hstart]
  generalize unpacked x = u at h ⊢
  cases h <;> rfl

/-- Infinity is not smaller than a number. -/
theorem smaller_infinity (h : Represents k (unpacked x) q) : smaller infinity x = x := by
  have hstart : unpacked infinity = .infinity .positive := rfl
  refine if_pos ?_
  rw [lt_iff_unpacked, UnpackedFloat.lt, hstart]
  generalize unpacked x = u at h ⊢
  cases h with
  | zero s => rfl
  | finite s => cases s <;> rfl

/-- The doubles have the values. -/
abbrev RepresentsAll (k : ℕ) (xs : List Float) (qs : List ℚ) : Prop :=
  List.Forall₂ (fun x q => Represents k (unpacked x) q) xs qs

/-- Choosing one double after another leaves one whose value none exceeds. -/
theorem exists_best {better : Float → Float → Float} {R : ℚ → ℚ → Prop} [IsPreorder ℚ R]
    (hbetter : Chooses k better R) {xs : List Float} {qs : List ℚ} (hxs : RepresentsAll k xs qs)
    (ha : Represents k (unpacked a) p) :
    ∃ r, Represents k (unpacked (xs.foldl better a)) r ∧ r ∈ p :: qs ∧ ∀ q ∈ p :: qs, R q r := by
  induction hxs generalizing a p with
  | nil =>
    refine ⟨p, ha, List.mem_singleton_self p, fun q hq => ?_⟩
    obtain rfl := List.mem_singleton.mp hq
    exact refl_of R q
  | @cons b q xs qs hb hxs ih =>
    obtain ⟨r, hr, hchosen, hpr, hqr⟩ := hbetter ha hb
    obtain ⟨s, hs, hmem, hbest⟩ := ih hr
    refine ⟨s, hs, ?_, fun t ht => ?_⟩
    · rcases List.mem_cons.mp hmem with rfl | hmem
      · rcases hchosen with rfl | rfl
        · exact List.mem_cons_self
        · exact List.mem_cons_of_mem _ List.mem_cons_self
      · exact List.mem_cons_of_mem _ (List.mem_cons_of_mem _ hmem)
    · have hrs : R r s := hbest r List.mem_cons_self
      rcases List.mem_cons.mp ht with rfl | ht
      · exact trans_of R hpr hrs
      · rcases List.mem_cons.mp ht with rfl | ht
        · exact trans_of R hqr hrs
        · exact hbest t (List.mem_cons_of_mem _ ht)

/-! ## Calls -/

private theorem represents_zero : Represents 52 (unpacked 0.0) 0 := by
  have hparts : unpacked 0.0 = .zero .positive := rfl
  rw [hparts]
  exact .zero _

private theorem represents_unit (s : Sign) : Represents 52
    (.finite s (2 ^ 52) (-52) (Nat.two_pow_pos 52)) (signed s 1) := by
  have hvalue : (1 : ℚ) = (2 ^ 52 : ℕ) * 2 ^ (-52 : ℤ) := by norm_num
  rw [hvalue]
  exact .finite _ _ (Nat.le_refl _) (by decide) (by decide)

/-- Zero has no sign, whatever its double has. -/
theorem represents_signum (h : Represents k (unpacked x) q) :
    Represents 52 (unpacked (signum x)) (SignType.sign q) := by
  have hpositive : unpacked 1.0 = .finite .positive (2 ^ 52) (-52) (Nat.two_pow_pos 52) := rfl
  have hnegative : unpacked (-1.0) = .finite .negative (2 ^ 52) (-52) (Nat.two_pow_pos 52) := rfl
  have hequal : (x == 0.0) = (cmp q 0).isEq := Relation.holds_eq h represents_zero .equal
  unfold signum
  rw [hequal]
  rcases lt_trichotomy q 0 with hq | rfl | hq
  · rw [(cmp_eq_lt_iff _ _).mpr hq, if_neg (by decide), if_pos ((h.lt_iff represents_zero).mpr hq),
      hnegative, sign_neg hq]
    exact represents_unit .negative
  · rw [(cmp_eq_eq_iff _ _).mpr rfl, if_pos (by decide), sign_zero]
    exact represents_zero
  · rw [(cmp_eq_gt_iff _ _).mpr hq, if_neg (by decide),
      if_neg (mt (h.lt_iff represents_zero).mp hq.le.not_gt),
      if_pos ((represents_zero.lt_iff h).mpr hq), hpositive, sign_pos hq]
    exact represents_unit .positive

/-- Doubles are called with an argument, or with several of which one is taken. -/
theorem exists_call {f : RationalFunction} {name : String} (hname : name.toLower = f.name)
    {xs : List Float} {qs : List ℚ} (hxs : RepresentsAll 374 xs qs)
    (hlength : f.Accepts xs.length) :
    ∃ x y, call name xs = .ok x ∧ Represents 374 (unpacked x) y ∧ f.Gives qs y := by
  have hunary {g : Float → Float} {v : ℚ → ℚ} (hone : xs.length = 1)
      (hcall : ∀ x, call name [x] = .ok (g x))
      (hvalue : ∀ {x q}, Represents 374 (unpacked x) q → Represents 374 (unpacked (g x)) (v q))
      (hgives : ∀ q, f.Gives [q] (v q)) :
      ∃ x y, call name xs = .ok x ∧ Represents 374 (unpacked x) y ∧ f.Gives qs y := by
    obtain ⟨x, rfl⟩ := List.length_eq_one_iff.mp hone
    cases hxs with
    | cons hx hxs =>
      cases hxs
      exact ⟨_, _, hcall x, hvalue hx, hgives _⟩
  cases f with
  | abs =>
    refine hunary hlength (fun x => ?_) (fun h => h.abs.ofModel (by decide)) .abs
    rw [call, hname]
    rfl
  | sign =>
    refine hunary hlength (fun x => ?_) (fun h => (represents_signum h).mono (by decide)) .sign
    rw [call, hname]
    rfl
  | floor =>
    refine hunary hlength (fun x => ?_) (represents_roundWhole follows_floor) .floor
    rw [call, hname]
    rfl
  | ceiling =>
    refine hunary hlength (fun x => ?_) (represents_roundWhole follows_ceiling) .ceiling
    rw [call, hname]
    rfl
  | round =>
    refine hunary hlength (fun x => ?_) (represents_roundWhole follows_halfAway) .round
    rw [call, hname]
    rfl
  | max =>
    cases hxs with
    | nil => exact absurd hlength (Nat.lt_irrefl 0)
    | @cons x q xs qs hx hxs =>
      obtain ⟨r, hr, hmem, hbest⟩ := exists_best chooses_larger hxs hx
      refine ⟨xs.foldl larger x, r, ?_, hr, .max hmem hbest⟩
      rw [call, hname]
      change Except.ok (xs.foldl larger (larger (-infinity) x)) = _
      rw [larger_infinity hx]
  | min =>
    cases hxs with
    | nil => exact absurd hlength (Nat.lt_irrefl 0)
    | @cons x q xs qs hx hxs =>
      obtain ⟨r, hr, hmem, hbest⟩ := exists_best chooses_smaller hxs hx
      refine ⟨xs.foldl smaller x, r, ?_, hr, .min hmem hbest⟩
      rw [call, hname]
      change Except.ok (xs.foldl smaller (smaller infinity x)) = _
      rw [smaller_infinity hx]

end Numeric

end Reckoner
