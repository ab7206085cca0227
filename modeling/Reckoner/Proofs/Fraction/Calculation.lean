import Mathlib.Algebra.Order.Field.Basic
import Mathlib.Order.Compare
import Reckoner.Proofs.Fraction.Arithmetic

/-!
# Calculations with fractions

A calculation makes fractions of parts of 64 bits and goes on with the results it has. Every result
is normal and has the exact value of its operation, so that equal results are equal in their parts.
Results are in the order of their values, and the cross products that tell it fit 128 bits.
-/

namespace Reckoner.Fraction

variable {p q r : Fraction} {m n : Int}

/-! ## Parts in range -/

/-- A fraction is made of parts that can be negated, and they become no greater. -/
theorem natAbs_le_of_make? (h : make? m n = some q) :
    m ≠ least ∧ n ≠ least ∧ q.num.natAbs ≤ m.natAbs ∧ q.den.natAbs ≤ n.natAbs := by
  unfold make? at h
  split at h
  · cases h
  · rename_i hr
    simp only [not_or] at hr
    have hnum := Int.natAbs_ediv_le_natAbs m (Int.gcd m n)
    have hden := Int.natAbs_ediv_le_natAbs n (Int.gcd m n)
    refine ⟨hr.2.1, hr.2.2, ?_⟩
    cases h
    split
    · simpa only [Int.neg_mul, Int.one_mul, Int.natAbs_neg] using ⟨hnum, hden⟩
    · simpa only [Int.one_mul] using ⟨hnum, hden⟩

/-- What is made of parts in range is normal. -/
theorem make?_normal (hm : least ≤ m ∧ m ≤ greatest) (hn : least ≤ n ∧ n ≤ greatest)
    (h : make? m n = some q) : q.Normal := by
  obtain ⟨hm', hn', hnum, hden⟩ := natAbs_le_of_make? h
  obtain ⟨-, hpos, hcoprime⟩ := make?_sound h
  unfold least greatest at *
  constructor
  case num_range =>
    unfold least greatest
    omega
  case den_range =>
    unfold greatest
    omega
  case coprime => exact hcoprime

/-- The negation of a normal fraction is normal. -/
theorem neg?_normal (hq : q.Normal) (h : neg? q = some r) : r.Normal := by
  have hlowest := (neg?_sound h hq.lowest).2
  simp only [neg?, Option.bind_eq_bind, Option.bind_eq_some_iff, inRange?_eq_some] at h
  obtain ⟨_, ⟨hrange, rfl⟩, hr⟩ := h
  cases hr
  exact ⟨hrange, hq.den_range, hlowest.coprime⟩

/-- A product is normal. -/
theorem mul?_normal (h : mul? p q = some r) : r.Normal := by
  simp only [mul?, Option.bind_eq_bind, Option.bind_eq_some_iff, inRange?_eq_some] at h
  obtain ⟨_, ⟨hnum, rfl⟩, _, ⟨hden, rfl⟩, hr⟩ := h
  exact make?_normal hnum hden hr

/-- A quotient is normal. -/
theorem div?_normal (h : div? p q = some r) : r.Normal := by
  simp only [div?, Option.bind_eq_bind, Option.bind_eq_some_iff, inRange?_eq_some] at h
  obtain ⟨_, ⟨hnum, rfl⟩, _, ⟨hden, rfl⟩, hr⟩ := h
  exact make?_normal hnum hden hr

/-- A sum is normal. -/
theorem add?_normal (h : add? p q = some r) : r.Normal := by
  simp only [add?, Option.bind_eq_bind, Option.bind_eq_some_iff, inRange?_eq_some] at h
  obtain ⟨_, _, _, _, _, ⟨hnum, rfl⟩, _, ⟨hden, rfl⟩, hr⟩ := h
  exact make?_normal hnum hden hr

/-- A difference is normal. -/
theorem sub?_normal (h : sub? p q = some r) : r.Normal := by
  simp only [sub?, Option.bind_eq_bind, Option.bind_eq_some_iff] at h
  obtain ⟨_, _, hr⟩ := h
  exact add?_normal hr

/-- A power is in range. -/
theorem power?_range {e : Nat} (h : power? m e = some n) : least ≤ n ∧ n ≤ greatest := by
  unfold power? at h
  split at h
  · obtain ⟨hrange, rfl⟩ := inRange?_eq_some.mp h
    exact hrange
  · split at h
    · rename_i hm
      cases h
      have hpower : (m ^ (64 + e % 2)).natAbs ≤ 1 := by
        rw [Int.natAbs_pow]
        exact pow_le_one₀ (Nat.zero_le _) hm
      change least ≤ m ^ (64 + e % 2) ∧ m ^ (64 + e % 2) ≤ greatest
      unfold least greatest
      omega
    · cases h

/-- A power is normal. -/
theorem pow?_normal {e : Int} (h : pow? q e = some r) : r.Normal := by
  unfold pow? at h
  split at h
  · cases h
  · simp only [Option.bind_eq_bind, Option.bind_eq_some_iff] at h
    obtain ⟨num, hnum, den, hden, hr⟩ := h
    split at hr
    · exact make?_normal (power?_range hden) (power?_range hnum) hr
    · exact make?_normal (power?_range hnum) (power?_range hden) hr

/-! ## What has no result -/

/-- Nothing is made over zero. -/
theorem den_ne_zero_of_make? (h : make? m n = some q) : n ≠ 0 := by
  rintro rfl
  cases h

/-- There is no quotient by zero. -/
theorem value_ne_zero_of_div? (hq : q.Lowest) (h : div? p q = some r) : q.value ≠ 0 := by
  simp only [div?, Option.bind_eq_bind, Option.bind_eq_some_iff, inRange?_eq_some] at h
  obtain ⟨_, _, _, ⟨_, rfl⟩, hr⟩ := h
  have hzero := den_ne_zero_of_make? hr
  rw [Ne, hq.value_eq_zero_iff, isZero, beq_iff_eq]
  rintro hnum
  rw [hnum, Int.mul_zero] at hzero
  exact hzero rfl

/-- There is no negative power of zero. -/
theorem value_ne_zero_of_pow? {e : Int} (hq : q.Lowest) (he : e < 0) (h : pow? q e = some r) :
    q.value ≠ 0 := by
  unfold pow? at h
  split at h
  · cases h
  · simp only [Option.bind_eq_bind, Option.bind_eq_some_iff] at h
    obtain ⟨num, hnum, den, hden, hr⟩ := h
    have hzero := den_ne_zero_of_make? hr
    obtain rfl := power?_sound hnum
    rw [Ne, hq.value_eq_zero_iff, isZero, beq_iff_eq]
    intro hq
    rw [hq, zero_pow (by omega)] at hzero
    exact hzero rfl

/-! ## The order -/

/-- Cross products of normal fractions fit 128 bits. -/
theorem Normal.natAbs_cross_lt (hp : p.Normal) (hq : q.Normal) :
    (p.num * q.den).natAbs < 2 ^ 127 := by
  have hnum : p.num.natAbs ≤ 2 ^ 63 := by
    have hrange := hp.num_range
    unfold least greatest at hrange
    omega
  have hden : q.den.natAbs < 2 ^ 63 := by
    have hrange := hq.den_range
    unfold greatest at hrange
    omega
  calc (p.num * q.den).natAbs
      = p.num.natAbs * q.den.natAbs := Int.natAbs_mul _ _
    _ ≤ 2 ^ 63 * 2 ^ 63 := Nat.mul_le_mul hnum hden.le
    _ < 2 ^ 127 := by decide

/-- Fractions are in the order of their products across the line. -/
theorem Lowest.lt_iff (hp : p.Lowest) (hq : q.Lowest) :
    p.value < q.value ↔ p.num * q.den < q.num * p.den := by
  have hpd : (0 : ℚ) < p.den := Int.cast_pos.mpr hp.den_pos
  have hqd : (0 : ℚ) < q.den := Int.cast_pos.mpr hq.den_pos
  rw [value, value, div_lt_div_iff₀ hpd hqd]
  exact_mod_cast Iff.rfl

/-- Fractions in lowest terms are told apart by their values. -/
theorem Lowest.eq_of_value_eq (hp : p.Lowest) (hq : q.Lowest) (h : p.value = q.value) : p = q := by
  have hnum : p.num = q.num := by rw [← hp.num_value, ← hq.num_value, h]
  have hden : p.den = q.den := by rw [← hp.den_value, ← hq.den_value, h]
  cases p
  cases q
  cases hnum
  cases hden
  rfl

/-- The order of the cross products is that of the values. -/
theorem Lowest.compare_eq (hp : p.Lowest) (hq : q.Lowest) :
    p.compare q = cmp p.value q.value := by
  rw [compare, ← cmp_eq_compare]
  rcases lt_trichotomy p.value q.value with hlt | heq | hgt
  · rw [(cmp_eq_lt_iff _ _).mpr hlt, (cmp_eq_lt_iff _ _).mpr ((hp.lt_iff hq).mp hlt)]
  · obtain rfl := hp.eq_of_value_eq hq heq
    rw [cmp_self_eq_eq, cmp_self_eq_eq]
  · rw [(cmp_eq_gt_iff _ _).mpr hgt, (cmp_eq_gt_iff _ _).mpr ((hq.lt_iff hp).mp hgt)]

/-- Only equal fractions compare as equal. -/
theorem Lowest.compare_eq_eq_iff (hp : p.Lowest) (hq : q.Lowest) : p.compare q = .eq ↔ p = q := by
  rw [hp.compare_eq hq, cmp_eq_eq_iff]
  constructor
  · exact hp.eq_of_value_eq hq
  · rintro rfl
    rfl

/-! ## Calculations -/

/-- An operation of a calculation. Its operands are earlier results, counted from the first. -/
inductive Step where
  /-- The fraction of two parts. -/
  | make (num den : Int64)
  /-- A whole number. -/
  | whole (n : Int64)
  /-- The negated result. -/
  | neg (i : Nat)
  /-- The sum of two results. -/
  | add (i j : Nat)
  /-- The difference of two results. -/
  | sub (i j : Nat)
  /-- The product of two results. -/
  | mul (i j : Nat)
  /-- The quotient of two results. -/
  | div (i j : Nat)
  /-- A whole power of a result. -/
  | pow (i : Nat) (exponent : Int64)
  deriving DecidableEq, Repr

namespace Step

/-- The result of an operation, unless a part leaves the range. -/
def result? (results : List Fraction) : Step → Option Fraction
  | make num den => make? num.toInt den.toInt
  | whole n => some (ofInt n.toInt)
  | neg i => do (← results[i]?).neg?
  | add i j => do (← results[i]?).add? (← results[j]?)
  | sub i j => do (← results[i]?).sub? (← results[j]?)
  | mul i j => do (← results[i]?).mul? (← results[j]?)
  | div i j => do (← results[i]?).div? (← results[j]?)
  | pow i exponent => do (← results[i]?).pow? exponent.toInt

/-- The exact value of an operation on values, where it has one. -/
def value? (values : List ℚ) : Step → Option ℚ
  | make num den => if den.toInt = 0 then none else some (num.toInt / den.toInt)
  | whole n => some n.toInt
  | neg i => do return -(← values[i]?)
  | add i j => do return (← values[i]?) + (← values[j]?)
  | sub i j => do return (← values[i]?) - (← values[j]?)
  | mul i j => do return (← values[i]?) * (← values[j]?)
  | div i j => do
    let a ← values[i]?
    let b ← values[j]?
    if b = 0 then none else return a / b
  | pow i exponent => do
    let a ← values[i]?
    if a = 0 ∧ exponent.toInt < 0 then none else return a ^ exponent.toInt

end Step

/-- The results of a calculation, behind earlier ones. What has no result adds none. -/
def calculate (results : List Fraction) : List Step → List Fraction
  | [] => results
  | step :: rest => calculate (results ++ (step.result? results).toList) rest

/-- The parts that a calculation is given are in range. -/
theorem int64_range (n : Int64) : least ≤ n.toInt ∧ n.toInt ≤ greatest := by
  have hleast := n.le_toInt
  have hgreatest := n.toInt_lt
  unfold least greatest
  omega

/-- The operands of an operation are earlier results. -/
theorem exists_operands {f : Fraction → Fraction → Option Fraction} {results : List Fraction}
    {i j : Nat} (h : (do f (← results[i]?) (← results[j]?)) = some r) :
    ∃ p q, results[i]? = some p ∧ results[j]? = some q ∧ f p q = some r := by
  obtain ⟨p, hi, hrest⟩ := Option.bind_eq_some_iff.mp h
  obtain ⟨q, hj, hr⟩ := Option.bind_eq_some_iff.mp hrest
  exact ⟨p, q, hi, hj, hr⟩

/-- An operation on normal results has a normal result, which is its exact value. -/
theorem Step.result?_exact {step : Step} {results : List Fraction}
    (hresults : ∀ q ∈ results, q.Normal) (h : step.result? results = some r) :
    r.Normal ∧ step.value? (results.map value) = some r.value := by
  have hoperand {i : Nat} {q : Fraction} (hi : results[i]? = some q) :
      q.Normal ∧ (results.map value)[i]? = some q.value := by
    refine ⟨hresults q (List.mem_of_getElem? hi), ?_⟩
    rw [List.getElem?_map, hi, Option.map_some]
  cases step with
  | make num den =>
    have hden := den_ne_zero_of_make? h
    refine ⟨make?_normal (int64_range num) (int64_range den) h, ?_⟩
    rw [value?, if_neg hden, (make?_sound h).1]
  | whole n =>
    cases h
    refine ⟨normal_ofInt (int64_range n), ?_⟩
    rw [value?, value, ofInt, Int.cast_one, div_one]
  | neg i =>
    obtain ⟨q, hi, hr⟩ := Option.bind_eq_some_iff.mp h
    obtain ⟨hq, hvalue⟩ := hoperand hi
    refine ⟨neg?_normal hq hr, ?_⟩
    rw [value?, hvalue, (neg?_sound hr hq.lowest).1]
    rfl
  | add i j =>
    obtain ⟨p, q, hi, hj, hr⟩ := exists_operands h
    obtain ⟨hp, hvalue⟩ := hoperand hi
    obtain ⟨hq, hvalue'⟩ := hoperand hj
    refine ⟨add?_normal hr, ?_⟩
    rw [value?, hvalue, hvalue', (add?_sound hr hp.lowest hq.lowest).1]
    rfl
  | sub i j =>
    obtain ⟨p, q, hi, hj, hr⟩ := exists_operands h
    obtain ⟨hp, hvalue⟩ := hoperand hi
    obtain ⟨hq, hvalue'⟩ := hoperand hj
    refine ⟨sub?_normal hr, ?_⟩
    rw [value?, hvalue, hvalue', (sub?_sound hr hp.lowest hq.lowest).1]
    rfl
  | mul i j =>
    obtain ⟨p, q, hi, hj, hr⟩ := exists_operands h
    obtain ⟨-, hvalue⟩ := hoperand hi
    obtain ⟨-, hvalue'⟩ := hoperand hj
    refine ⟨mul?_normal hr, ?_⟩
    rw [value?, hvalue, hvalue', (mul?_sound hr).1]
    rfl
  | div i j =>
    obtain ⟨p, q, hi, hj, hr⟩ := exists_operands h
    obtain ⟨-, hvalue⟩ := hoperand hi
    obtain ⟨hq, hvalue'⟩ := hoperand hj
    have hzero := value_ne_zero_of_div? hq.lowest hr
    refine ⟨div?_normal hr, ?_⟩
    rw [value?, hvalue, hvalue', (div?_sound hr).1]
    exact if_neg hzero
  | pow i exponent =>
    obtain ⟨q, hi, hr⟩ := Option.bind_eq_some_iff.mp h
    obtain ⟨hq, hvalue⟩ := hoperand hi
    have hzero : ¬(q.value = 0 ∧ exponent.toInt < 0) := by
      rintro ⟨hvalue, he⟩
      exact value_ne_zero_of_pow? hq.lowest he hr hvalue
    refine ⟨pow?_normal hr, ?_⟩
    rw [value?, hvalue, (pow?_sound hr).1]
    exact if_neg hzero

/-- The results of a calculation are normal. -/
theorem normal_of_calculate (steps : List Step) {results : List Fraction}
    (hresults : ∀ q ∈ results, q.Normal) : ∀ q ∈ calculate results steps, q.Normal := by
  induction steps generalizing results with
  | nil => exact hresults
  | cons step rest ih =>
    apply ih
    intro q hq
    rcases List.mem_append.mp hq with hq | hq
    · exact hresults q hq
    · have hresult : step.result? results = some q := Option.mem_toList.mp hq
      exact (step.result?_exact hresults hresult).1

/-- Whatever is calculated from parts of 64 bits, the results so far and that of the next operation
are normal, the latter is the exact value of the operation on the values of its operands, and
results compare as their values do, by products of 128 bits, and as equal exactly if they are the
same. -/
theorem calculate_exact (steps : List Step) :
    (∀ q ∈ calculate [] steps, q.Normal) ∧
    (∀ (step : Step) (q : Fraction), step.result? (calculate [] steps) = some q →
      q.Normal ∧ step.value? ((calculate [] steps).map value) = some q.value) ∧
    ∀ p ∈ calculate [] steps, ∀ q ∈ calculate [] steps,
      (p.num * q.den).natAbs < 2 ^ 127 ∧ p.compare q = cmp p.value q.value ∧
        (p.compare q = .eq ↔ p = q) := by
  have hnormal : ∀ q ∈ calculate [] steps, q.Normal :=
    normal_of_calculate steps fun _ hq => by cases hq
  refine ⟨hnormal, fun step q hq => step.result?_exact hnormal hq, ?_⟩
  intro p hp q hq
  have hp' := hnormal p hp
  have hq' := hnormal q hq
  exact ⟨hp'.natAbs_cross_lt hq', hp'.lowest.compare_eq hq'.lowest,
    hp'.lowest.compare_eq_eq_iff hq'.lowest⟩

/-- A product that leaves the range adds no result; the quotient of the last two is exact. -/
theorem calculate_exact_quotient :
    (Step.div 3 0).result?
        (calculate [] [.make 4 (-6), .whole 2, .pow 1 62, .mul 2 2, .sub 0 1]) = some ⟨4, 1⟩ ∧
    (Step.div 3 0).value?
        ((calculate [] [.make 4 (-6), .whole 2, .pow 1 62, .mul 2 2, .sub 0 1]).map value) =
      some (value ⟨4, 1⟩) ∧
    Ordering.lt = cmp (value ⟨-8, 3⟩) (value ⟨-2, 3⟩) := by
  have hresults : calculate [] [.make 4 (-6), .whole 2, .pow 1 62, .mul 2 2, .sub 0 1] =
      [⟨-2, 3⟩, ⟨2, 1⟩, ⟨4611686018427387904, 1⟩, ⟨-8, 3⟩] := by decide
  have hquotient : (Step.div 3 0).result?
      (calculate [] [.make 4 (-6), .whole 2, .pow 1 62, .mul 2 2, .sub 0 1]) = some ⟨4, 1⟩ := by
    rw [hresults]
    decide
  obtain ⟨-, hstep, horder⟩ :=
    calculate_exact [.make 4 (-6), .whole 2, .pow 1 62, .mul 2 2, .sub 0 1]
  obtain ⟨-, hcompare, -⟩ := horder ⟨-8, 3⟩ (by rw [hresults]; decide) ⟨-2, 3⟩
    (by rw [hresults]; decide)
  exact ⟨hquotient, (hstep _ _ hquotient).2, hcompare⟩

/-- The least number of the range can be used as it is, but neither negated nor reduced. -/
example : calculate [] [.whole (-0x8000000000000000), .neg 0, .make (-0x8000000000000000) 2,
    .make 1 (-0x8000000000000000), .whole (-2), .pow 1 63] =
      [⟨-0x8000000000000000, 1⟩, ⟨-2, 1⟩] := by decide

end Reckoner.Fraction
