import Reckoner.Proofs.Decimal.Sign
import Reckoner.Proofs.Engine.Quantity
import Reckoner.Proofs.Fraction.Arithmetic

/-!
# Folding keeps exact values

A simplified expression has its lists on the outside: below them stand expressions that are
worth a number. Negation and arithmetic on such expressions give the negated and the combined
value, unless they fall back to an approximate number, and arithmetic fails only where the
value is missing.
-/

namespace Reckoner

namespace Expr

mutual

/-- The trees within a tree, itself first. -/
def parts : Expr → List Expr
  | exact q => [exact q]
  | real x => [real x]
  | symbol name => [symbol name]
  | boolean b => [boolean b]
  | neg a => neg a :: parts a
  | binary f a b => binary f a b :: (parts a ++ parts b)
  | compare f a b => compare f a b :: (parts a ++ parts b)
  | call f as => call f as :: partsAll as
  | list as => list as :: partsAll as

/-- The trees within several trees. -/
def partsAll : List Expr → List Expr
  | [] => []
  | a :: as => parts a ++ partsAll as

end

-- The equations are derived here, once for all proofs behind.
attribute [grind =] parts partsAll same sameAll

/-- The exact numbers of a tree. -/
def exacts (e : Expr) : List Fraction := e.parts.filterMap exactValue?

/-- No approximate number is left. -/
def isRealFree (e : Expr) : Bool := e.parts.all fun d => !d.isReal

/-- Every exact number is in lowest terms. -/
def Lowest (e : Expr) : Prop := ∀ q ∈ e.exacts, q.Lowest

theorem mem_parts_self (e : Expr) : e ∈ e.parts := by
  cases e <;> simp only [parts, List.mem_cons, true_or]

section Lowest

variable {a b : Expr} {as : List Expr} {f : Operation}

/-- A number is in lowest terms as a tree if it is as a fraction. -/
theorem lowest_exact {q : Fraction} : Lowest (exact q) ↔ q.Lowest := by
  simp only [Lowest, exacts, parts, List.filterMap_cons, exactValue?, List.filterMap_nil,
    List.mem_singleton, forall_eq]

/-- A negation is in lowest terms if its operand is. -/
theorem lowest_neg : Lowest (neg a) ↔ Lowest a := by
  simp only [Lowest, exacts, parts, List.filterMap_cons, exactValue?]

/-- An operation is in lowest terms if its operands are. -/
theorem lowest_binary : Lowest (binary f a b) ↔ Lowest a ∧ Lowest b := by
  simp only [Lowest, exacts, parts, List.filterMap_cons, exactValue?, List.filterMap_append,
    List.mem_append, or_imp, forall_and]

/-- The numbers of an item are numbers of the list. -/
theorem mem_exacts_list {q : Fraction} (ha : a ∈ as) (hq : q ∈ a.exacts) :
    q ∈ (list as).exacts := by
  have hall : q ∈ (partsAll as).filterMap exactValue? := by
    induction as with
    | nil => cases ha
    | cons b as ih =>
      rw [partsAll, List.filterMap_append, List.mem_append]
      rcases List.mem_cons.mp ha with rfl | ha
      · exact .inl hq
      · exact .inr (ih ha)
  simpa only [exacts, parts, List.filterMap_cons, exactValue?] using hall

/-- A list is free of approximate numbers if its items are. -/
theorem isRealFree_list : isRealFree (list as) = as.all isRealFree := by
  have hall : (partsAll as).all (fun d => !d.isReal) = as.all isRealFree := by
    induction as with
    | nil => rfl
    | cons a as ih => rw [partsAll, List.all_append, ih, List.all_cons]; rfl
  rw [isRealFree, parts, List.all_cons, hall]
  rfl

end Lowest

end Expr

namespace Reading

open Reckoner.Expr Quantity

variable (r : Reading)

mutual

/-- Equal trees have the same value. -/
theorem quantity?_eq_of_same : ∀ {a b : Expr}, same a b = true → r.quantity? a = r.quantity? b
  | .exact p, b, h => by
    cases b <;> simp only [same, Bool.false_eq_true, beq_iff_eq] at h
    rw [h]
  | .real x, b, h => by
    cases b <;> simp only [same, Bool.false_eq_true] at h
    rw [quantity?, quantity?]
  | .symbol s, b, h => by
    cases b <;> simp only [same, Bool.false_eq_true, beq_iff_eq] at h
    rw [h]
  | .boolean p, b, h => by
    cases b <;> simp only [same, Bool.false_eq_true] at h
    rw [quantity?, quantity?]
  | .neg a, b, h => by
    cases b <;> simp only [same, Bool.false_eq_true] at h
    rw [quantity?, quantity?, quantity?_eq_of_same h]
  | .binary f a c, b, h => by
    cases b <;> simp only [same, Bool.false_eq_true, Bool.and_eq_true, beq_iff_eq] at h
    obtain ⟨⟨rfl, ha⟩, hc⟩ := h
    rw [quantity?, quantity?, quantity?_eq_of_same ha, quantity?_eq_of_same hc]
  | .compare f a c, b, h => by
    cases b <;> simp only [same, Bool.false_eq_true] at h
    rw [quantity?, quantity?]
  | .call f as, b, h => by
    cases b <;> simp only [same, Bool.false_eq_true] at h
    rw [quantity?, quantity?]
  | .list as, b, h => by
    cases b <;> simp only [same, Bool.false_eq_true] at h
    rw [quantity?, quantity?, quantities?_eq_of_same h]

/-- Lists that are the same item by item have the same values. -/
theorem quantities?_eq_of_same : ∀ {as bs : List Expr}, sameAll as bs = true →
    r.quantities? as = r.quantities? bs
  | [], bs, h => by
    cases bs <;> simp only [sameAll, Bool.false_eq_true] at h
    rfl
  | a :: as, bs, h => by
    cases bs <;> simp only [sameAll, Bool.false_eq_true, Bool.and_eq_true] at h
    rw [quantities?, quantities?, quantity?_eq_of_same h.1, quantities?_eq_of_same h.2]

end

/-- Worth a number, with every exact number in lowest terms. -/
structure IsScalar (e : Expr) (a : ℚ) : Prop where
  /-- The value. -/
  value : r.quantity? e = some (.scalar a)
  /-- The exact numbers are in lowest terms. -/
  lowest : e.Lowest

variable {r} {f : Operation} {d e e' : Expr} {a b c : ℚ} {p q s : Fraction}

/-- A fraction in lowest terms is worth its value. -/
theorem isScalar_exact (h : q.Lowest) : r.IsScalar (exact q) q.value :=
  ⟨by rw [quantity?], lowest_exact.mpr h⟩

/-- A fraction is worth nothing else. -/
theorem IsScalar.exact_value (h : r.IsScalar (exact q) a) : q.value = a ∧ q.Lowest := by
  have hv := h.value
  rw [quantity?] at hv
  cases hv
  exact ⟨rfl, lowest_exact.mp h.lowest⟩

/-- An integer is worth itself. -/
theorem isScalar_ofInt (n : Int) : r.IsScalar (ofInt n) n := by
  have h := isScalar_exact (r := r) (Fraction.lowest_ofInt n)
  rwa [Fraction.value_ofInt] at h

/-- An operation has the combined value of its operands. -/
theorem IsScalar.binary (hd : r.IsScalar d a) (he : r.IsScalar e b)
    (h : r.operate f a b = some c) : r.IsScalar (.binary f d e) c := by
  refine ⟨?_, lowest_binary.mpr ⟨hd.lowest, he.lowest⟩⟩
  simp only [quantity?, hd.value, he.value, Option.bind_eq_bind, Option.bind_some, lift, liftRight,
    h, Option.map_some]

/-- A negation is worth the negative value. -/
theorem IsScalar.neg (h : r.IsScalar e a) : r.IsScalar (.neg e) (-a) := by
  refine ⟨?_, lowest_neg.mpr h.lowest⟩
  rw [quantity?, h.value, Option.map_some, Quantity.neg]

/-- Below a negation stands the negated value. -/
theorem IsScalar.of_neg (h : r.IsScalar (.neg e) a) : r.IsScalar e (-a) := by
  have hv := h.value
  rw [quantity?, Option.map_eq_some_iff] at hv
  obtain ⟨v, hv, hneg⟩ := hv
  cases v with
  | scalar b =>
    rw [Quantity.neg] at hneg
    cases hneg
    exact ⟨by rwa [neg_neg], lowest_neg.mp h.lowest⟩
  | vector vs =>
    rw [Quantity.neg] at hneg
    cases hneg

/-- A list is not worth a number. -/
theorem IsScalar.not_list {as : List Expr} (h : r.IsScalar (list as) a) : False := by
  have hv := h.value
  rw [quantity?, Option.map_eq_some_iff] at hv
  obtain ⟨vs, -, hv⟩ := hv
  cases hv

/-- An approximate number has no exact value. -/
theorem IsScalar.not_real {x : Float} (h : r.IsScalar (real x) a) : False := by
  have hv := h.value
  rw [quantity?] at hv
  cases hv

/-- A number that is worth something is exact. -/
theorem IsScalar.exact_of_isNumber (h : r.IsScalar e a) (hn : e.isNumber = true) :
    ∃ q, e = exact q := by
  cases e with
  | exact q => exact ⟨q, rfl⟩
  | real x => exact h.not_real.elim
  | symbol | boolean | neg | binary | compare | call | list => cases hn

/-- Trees that are the same are worth the same. -/
theorem IsScalar.eq_of_same (hd : r.IsScalar d a) (he : r.IsScalar e b) (h : same d e = true) :
    a = b := by
  have hv := hd.value
  rw [quantity?_eq_of_same r h, he.value] at hv
  cases hv
  rfl

/-- A tree that is exactly an integer is worth that integer. -/
theorem IsScalar.eq_of_isExactly {n : Int} (h : r.IsScalar e a) (hn : e.isExactly n = true) :
    a = n := by
  unfold isExactly at hn
  split at hn
  · rw [beq_iff_eq] at hn
    subst hn
    rw [← h.exact_value.1, Fraction.value_ofInt]
  · cases hn

/-! ## Negation -/

/-- The negated number is exact or not a number that is kept. -/
theorem IsScalar.negate (h : r.IsScalar e a) (hf : isRealFree (negate e) = true) :
    r.IsScalar (Expr.negate e) (-a) := by
  cases e with
  | exact q =>
    obtain ⟨rfl, hq⟩ := h.exact_value
    unfold Expr.negate at hf ⊢
    split at hf
    · rename_i p hp
      obtain ⟨hvalue, hlowest⟩ := Fraction.neg?_sound hp hq
      rw [← hvalue]
      exact isScalar_exact hlowest
    · cases hf
  | real x => exact h.not_real.elim
  | neg e => exact h.of_neg
  | list as => exact h.not_list.elim
  | symbol | boolean | binary | compare | call => exact h.neg

/-! ## Exact numbers -/

/-- The power of two doubles is not below zero where the base is not. -/
def PowerNonneg (x y : Float) : Prop := 0.0 ≤ x → ¬ Float.pow x y < 0.0

/-- What a root that is found has passed. -/
private theorem root?_checks (h : p.root? q = some s) :
    p.isWhole = true ∧ 0 ≤ p.num ∧ ∃ n raised,
      nearWhole? (Float.pow p.toFloat q.toFloat) = some n ∧
      Fraction.power? n q.den.toNat = some raised ∧
      p.pow? q.num = some (Fraction.ofInt raised) ∧ s = Fraction.ofInt n := by
  unfold Fraction.root? at h
  dsimp only at h
  split at h
  · cases h
  · rename_i hnatural
    simp only [Bool.or_eq_true, Bool.not_eq_true', decide_eq_true_eq, not_or, Bool.not_eq_false,
      Int.not_lt] at hnatural
    refine ⟨hnatural.1, hnatural.2, ?_⟩
    simp only [Option.bind_eq_bind, Option.bind_eq_some_iff] at h
    obtain ⟨n, hnear, h⟩ := h
    split at h
    · cases h
    · simp only [Option.bind_eq_some_iff] at h
      obtain ⟨raised, hraised, target, htarget, h⟩ := h
      split at h
      · rename_i heq
        cases h
        exact ⟨n, raised, hnear, hraised, heq ▸ htarget, rfl⟩
      · cases h

/-- A root that is found is the natural root of a natural number. -/
theorem root_of_root? (h : p.root? q = some s) (hq : q.Lowest) (hw : q.isWhole ≠ true)
    (hpow : PowerNonneg p.toFloat q.toFloat) (hdef : ¬ (p.value = 0 ∧ q.value < 0)) :
    r.root p.value q.value = some s.value := by
  obtain ⟨hwhole, hnum, n, raised, hnear, hraised, htarget, rfl⟩ := root?_checks h
  have hplus := isPlus_toFloat hnum (by simpa only [Fraction.isWhole, beq_iff_eq] using hwhole)
  have hn : 0 ≤ n := nearWhole?_nonneg hnear (hpow (nonneg_of_isPlus hplus))
  obtain ⟨c, rfl⟩ := Int.eq_ofNat_of_zero_le hn
  obtain ⟨m, hm⟩ := Int.eq_ofNat_of_zero_le hnum
  have hp : p.value = (m : ℚ) := by
    rw [Fraction.value_eq_num hwhole, hm, Int.cast_natCast]
  have hden : q.value.den ≠ 1 := mt hq.isWhole_iff.mpr hw
  have hzero : q.value ≠ 0 := by
    intro hz
    rw [hz] at hden
    exact hden rfl
  have hsign : m ≠ 0 ∨ 0 < q.value := by
    by_cases hm0 : m = 0
    · have hle : ¬ q.value < 0 := fun hlt => hdef ⟨by rw [hp, hm0, Nat.cast_zero], hlt⟩
      exact .inr (lt_of_le_of_ne (not_lt.mp hle) hzero.symm)
    · exact .inl hm0
  have hexponent : q.den.toNat = q.value.den := by
    have hd := hq.den_value
    omega
  have hpower : (c : ℚ) ^ q.value.den = (m : ℚ) ^ q.value.num := by
    have hr := Fraction.power?_sound hraised
    have ht := (Fraction.pow?_sound htarget).1
    rw [Fraction.value_ofInt, hr, hp, hexponent, Int.cast_pow, Int.cast_natCast] at ht
    rw [ht, hq.num_value]
  rw [hp, Fraction.value_ofInt, Int.cast_natCast]
  exact r.root_natural m c q.value hden hsign hpower

/-- An exact result that was found is kept, and else the result is approximate. -/
private theorem isScalar_orApproximate {x : Float} {t : Option Fraction}
    (ht : ∀ s ∈ t, s.value = c ∧ s.Lowest) :
    ∀ e ∈ (t.map exact).or (some (real x)), isRealFree e = true → r.IsScalar e c := by
  intro e he hf
  cases t with
  | none =>
    cases he
    cases hf
  | some s =>
    cases he
    obtain ⟨rfl, hs⟩ := ht s rfl
    exact isScalar_exact hs

/-- The power of exact numbers, by multiplication or as a root. -/
private theorem foldExact_power (hp : p.Lowest) (hq : q.Lowest)
    (hpow : q.isWhole ≠ true → PowerNonneg p.toFloat q.toFloat)
    (h : r.operate .power p.value q.value = some c) :
    ∃ folded, foldExact .power p q = .ok folded ∧
      ∀ e ∈ folded, isRealFree e = true → r.IsScalar e c := by
  rw [operate] at h
  split at h
  · cases h
  · rename_i hdef
    have hzero : (p.isZero && decide (q.num < 0)) ≠ true := by
      rw [Ne, Bool.and_eq_true, decide_eq_true_eq, ← hp.value_eq_zero_iff, ← hq.value_neg_iff]
      exact hdef
    by_cases hw : q.isWhole = true
    · rw [if_pos (hq.isWhole_iff.mp hw), hq.num_value] at h
      cases h
      have hfold := foldExact.eq_def .power p q
      simp only [if_neg hzero, if_pos hw] at hfold
      exact ⟨_, hfold, isScalar_orApproximate fun s hs => Fraction.pow?_sound hs⟩
    · rw [if_neg (mt hq.isWhole_iff.mpr hw)] at h
      have hfold := foldExact.eq_def .power p q
      simp only [if_neg hzero, if_neg hw] at hfold
      refine ⟨_, hfold, ?_⟩
      intro e he _
      rw [Option.mem_map] at he
      obtain ⟨s, hs, rfl⟩ := he
      have hroot := root_of_root? (r := r) hs hq hw (hpow hw) hdef
      rw [h] at hroot
      cases hroot
      obtain ⟨-, -, n, -, -, -, -, rfl⟩ := root?_checks hs
      exact isScalar_exact (Fraction.lowest_ofInt n)

/-- Arithmetic on exact numbers gives the exact result, stays as it is, or is approximate. -/
theorem foldExact_sound (hp : p.Lowest) (hq : q.Lowest)
    (hpow : f = .power → q.isWhole ≠ true → PowerNonneg p.toFloat q.toFloat)
    (h : r.operate f p.value q.value = some c) :
    ∃ folded, foldExact f p q = .ok folded ∧
      ∀ e ∈ folded, isRealFree e = true → r.IsScalar e c := by
  cases f with
  | add =>
    cases h
    exact ⟨_, rfl, isScalar_orApproximate fun s hs => Fraction.add?_sound hs hp hq⟩
  | subtract =>
    cases h
    exact ⟨_, rfl, isScalar_orApproximate fun s hs => Fraction.sub?_sound hs hp hq⟩
  | multiply =>
    cases h
    exact ⟨_, rfl, isScalar_orApproximate fun s hs => Fraction.mul?_sound hs⟩
  | divide =>
    rw [operate] at h
    split at h
    · cases h
    · rename_i hz
      cases h
      rw [hq.value_eq_zero_iff] at hz
      exact ⟨_, by rw [foldExact]; exact if_neg hz,
        isScalar_orApproximate fun s hs => Fraction.div?_sound hs⟩
  | power => exact foldExact_power hp hq (hpow rfl) h

/-! ## Identities -/

/-- A power with a whole exponent is that of the field. -/
private theorem operate_power_whole {n : Int} (h : r.operate .power a n = some c) : c = a ^ n := by
  rw [operate] at h
  split at h
  · cases h
  · rw [if_pos (Rat.den_intCast n), Rat.num_intCast] at h
    cases h
    rfl

/-- The identities keep the combined value where there is one. -/
theorem IsScalar.applyIdentities (hd : r.IsScalar d a) (he : r.IsScalar e b)
    (h : r.operate f a b = some c) (hf : isRealFree (applyIdentities f d e) = true) :
    r.IsScalar (Expr.applyIdentities f d e) c := by
  have hkept := hd.binary he h
  unfold Expr.applyIdentities at hf ⊢
  cases f with
  | add =>
    cases h
    dsimp only
    split
    · rename_i hzero
      rwa [hd.eq_of_isExactly hzero, Int.cast_zero, zero_add]
    · split
      · rename_i hzero
        rwa [he.eq_of_isExactly hzero, Int.cast_zero, add_zero]
      · exact hkept
  | subtract =>
    cases h
    dsimp only at hf ⊢
    split
    · rename_i hzero
      rwa [he.eq_of_isExactly hzero, Int.cast_zero, sub_zero]
    · split
      · rename_i hsame
        rw [hd.eq_of_same he hsame, sub_self]
        exact_mod_cast isScalar_ofInt (r := r) 0
      · split
        · rename_i hright hsame hzero
          rw [if_neg hright, if_neg hsame, if_pos hzero] at hf
          rw [hd.eq_of_isExactly hzero, Int.cast_zero, zero_sub]
          exact he.negate hf
        · exact hkept
  | multiply =>
    cases h
    dsimp only
    split
    · rename_i hzero
      rw [Bool.or_eq_true] at hzero
      have hproduct : a * b = ((0 : Int) : ℚ) := by
        rcases hzero with hzero | hzero
        · rw [hd.eq_of_isExactly hzero, Int.cast_zero, zero_mul]
        · rw [he.eq_of_isExactly hzero, Int.cast_zero, mul_zero]
      rw [hproduct]
      exact isScalar_ofInt 0
    · split
      · rename_i hone
        rwa [hd.eq_of_isExactly hone, Int.cast_one, one_mul]
      · split
        · rename_i hone
          rwa [he.eq_of_isExactly hone, Int.cast_one, mul_one]
        · exact hkept
  | divide =>
    rw [operate] at h
    split at h
    · cases h
    · rename_i hb
      cases h
      dsimp only
      split
      · rename_i hone
        rwa [he.eq_of_isExactly hone, Int.cast_one, div_one]
      · split
        · rename_i hsame
          rw [hd.eq_of_same he hsame, div_self hb]
          exact_mod_cast isScalar_ofInt (r := r) 1
        · exact hkept
  | power =>
    dsimp only
    split
    · rename_i hzero
      rw [he.eq_of_isExactly hzero] at h
      rw [operate_power_whole h, zpow_zero]
      exact_mod_cast isScalar_ofInt (r := r) 1
    · split
      · rename_i hone
        rw [he.eq_of_isExactly hone] at h
        rwa [operate_power_whole h, zpow_one]
      · exact hkept

/-- Two expressions that are worth numbers are combined without a false error. -/
theorem foldScalar_sound (hd : r.IsScalar d a) (he : r.IsScalar e b)
    (h : r.operate f a b = some c)
    (hpow : f = .power → ∀ p q, d = exact p → e = exact q → q.isWhole ≠ true →
      PowerNonneg p.toFloat q.toFloat) :
    ∃ folded, foldScalar f d e = .ok folded ∧
      (isRealFree folded = true → r.IsScalar folded c) := by
  unfold foldScalar
  split
  · rename_i p q
    obtain ⟨rfl, hp⟩ := hd.exact_value
    obtain ⟨rfl, hq⟩ := he.exact_value
    obtain ⟨folded, hok, hfolded⟩ :=
      foldExact_sound hp hq (fun hf hw => hpow hf p q rfl rfl hw) h
    rw [hok]
    refine ⟨_, rfl, ?_⟩
    cases folded with
    | none => exact fun _ => hd.binary he h
    | some s => exact hfolded s rfl
  · rename_i hexact
    have hnumber : (d.isNumber && e.isNumber) ≠ true := by
      rw [Ne, Bool.and_eq_true]
      rintro ⟨hdn, hen⟩
      obtain ⟨p, rfl⟩ := hd.exact_of_isNumber hdn
      obtain ⟨q, rfl⟩ := he.exact_of_isNumber hen
      exact hexact p q rfl rfl
    rw [if_neg hnumber]
    exact ⟨_, rfl, hd.applyIdentities he h⟩

end Reading

end Reckoner
