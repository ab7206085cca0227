import Reckoner.Decimal.Text
import Reckoner.Proofs.Decimal.Sign
import Reckoner.Proofs.Grammar.Numerals

/-!
# The canonical text of a double

The canonical text of a double without a minus sign is one number with a point, or the name of
the infinity. So it is read as one token wherever neither a number nor a name goes on.
-/

namespace Reckoner.Decimal

/-! ## Digits around a point -/

namespace Pointed

/-- There are digits only, and some before the point. -/
structure Digital (p : Pointed) : Prop where
  /-- A digit stands before the point. -/
  nonempty : p.whole ≠ []
  /-- The digits before the point. -/
  whole : ∀ c ∈ p.whole, c.isDigit = true
  /-- The digits after the point. -/
  fraction : ∀ c ∈ p.fraction, c.isDigit = true

variable {p : Pointed}

/-- Digits with a point among them are digits on both sides. -/
theorem digital_ofDigits {digits : List Char} (h : ∀ c ∈ digits, c.isDigit = true)
    (places : Nat) : (ofDigits digits places).Digital := by
  let padded := List.replicate (places + 1 - digits.length) '0' ++ digits
  have hpadded (c : Char) (hc : c ∈ padded) : c.isDigit = true := by
    rcases List.mem_append.mp hc with hc | hc
    · rw [List.eq_of_mem_replicate hc]
      rfl
    · exact h c hc
  have hlength : places < padded.length := by
    simp only [padded, List.length_append, List.length_replicate]
    omega
  refine ⟨List.ne_nil_of_length_pos ?_, fun c hc => hpadded c (List.mem_of_mem_take hc),
    fun c hc => hpadded c (List.mem_of_mem_drop hc)⟩
  change 0 < (padded.take (padded.length - places)).length
  rw [List.length_take]
  omega

/-- Without zeros at its end a text of digits is still one. -/
theorem Digital.trim (h : p.Digital) : p.trim.Digital := by
  refine ⟨h.nonempty, h.whole, fun c hc => h.fraction c ?_⟩
  have hkept := List.mem_reverse.mp hc
  exact List.mem_reverse.mp ((List.dropWhile_sublist _).subset hkept)

/-- With a zero behind a bare point a text of digits is still one. -/
theorem Digital.keepOne (h : p.Digital) : p.keepOne.Digital := by
  unfold Pointed.keepOne
  split
  · refine ⟨h.nonempty, h.whole, fun c hc => ?_⟩
    rw [List.mem_singleton.mp hc]
    rfl
  · exact h

/-- With a digit after it the point is written. -/
theorem text_keepOne (p : Pointed) :
    p.keepOne.text = p.keepOne.whole ++ '.' :: p.keepOne.fraction := by
  unfold text
  split
  · rename_i hempty
    unfold Pointed.keepOne at hempty
    split at hempty
    · cases hempty
    · exact absurd hempty ‹_›
  · rfl

end Pointed

/-- The decimal digits of a number are digits. -/
private theorem isDigit_of_mem_toDigits {n : Nat} {c : Char} (h : c ∈ Nat.toDigits 10 n) :
    c.isDigit = true := Nat.isDigit_of_mem_toDigits (by decide) (by decide) h

/-- In plain notation a decimal is written in digits. -/
theorem digital_pointed (d : Decimal) : d.pointed.Digital := by
  unfold pointed
  split
  · refine ⟨?_, fun c hc => ?_, nofun⟩
    · exact List.append_ne_nil_of_left_ne_nil Nat.toDigits_ne_nil _
    · rcases List.mem_append.mp hc with hc | hc
      · exact isDigit_of_mem_toDigits hc
      · rw [List.eq_of_mem_replicate hc]
        rfl
  · exact Pointed.digital_ofDigits (fun c => isDigit_of_mem_toDigits) _

/-- Rounded to some places a number has digits only. -/
theorem digital_fixedPlaces (m : Nat) (e : Int) (places : Nat) :
    (fixedPlaces m e places).Digital :=
  Pointed.digital_ofDigits (fun _ => isDigit_of_mem_toDigits) places

/-- Rounded in the notation with an exponent a number has digits only. -/
theorem digital_scientificPlaces (m : Nat) (e : Int) (places : Nat) :
    (scientificPlaces m e places).1.Digital := by
  unfold scientificPlaces
  dsimp only
  split
  · exact Pointed.digital_ofDigits (fun c => isDigit_of_mem_toDigits) _
  · exact Pointed.digital_ofDigits (fun c => isDigit_of_mem_toDigits) _

/-! ## One number -/

/-- The text is a number with a point, perhaps with an exponent. -/
def IsNumeral (s : List Char) : Prop :=
  ∃ m : Token.Numeral, s = m.chars ∧ m.Proper ∧ m.whole ≠ [] ∧ m.fraction ≠ none ∧
    ∀ p ∈ m.power, p.2 ≠ []

/-- A text of digits with a point is a numeral. -/
theorem isNumeral_text {p : Pointed} (h : p.Digital) : IsNumeral p.keepOne.text := by
  have hone := h.keepOne
  refine ⟨⟨p.keepOne.whole, some p.keepOne.fraction, none⟩, ?_, ⟨hone.whole, ?_, nofun, nofun⟩,
    hone.nonempty, nofun, nofun⟩
  · rw [Pointed.text_keepOne]
    simp only [Token.Numeral.chars, Token.Numeral.pointed, Token.Numeral.marked, List.append_nil]
  · rintro ds hds
    cases hds
    exact hone.fraction

/-- An integer is written with its digits behind the sign. -/
theorem exists_toString (n : Int) : ∃ (negative : Bool) (k : Nat),
    (toString n).toList = (if negative then ['-'] else []) ++ Nat.toDigits 10 k := by
  by_cases hn : n < 0
  · obtain ⟨k, hk⟩ := Int.eq_ofNat_of_zero_le (show 0 ≤ -n by omega)
    refine ⟨true, k, ?_⟩
    rw [Token.toString_neg hn, hk, String.toList_append, Token.toList_toString_natCast]
    rfl
  · obtain ⟨k, rfl⟩ := Int.eq_ofNat_of_zero_le (show 0 ≤ n by omega)
    exact ⟨false, k, Token.toList_toString_natCast k⟩

/-- With an exponent behind it, it is a numeral as well. -/
theorem isNumeral_exponent {p : Pointed} (h : p.Digital) (n : Int) :
    IsNumeral (p.keepOne.text ++ 'E' :: (toString n).toList) := by
  have hone := h.keepOne
  obtain ⟨negative, k, hk⟩ := exists_toString n
  refine ⟨⟨p.keepOne.whole, some p.keepOne.fraction, some (negative, Nat.toDigits 10 k)⟩, ?_,
    ⟨hone.whole, ?_, ?_, ?_⟩, hone.nonempty, nofun, ?_⟩
  · rw [Pointed.text_keepOne, hk, List.append_assoc]
    cases negative <;> rfl
  · rintro ds hds
    cases hds
    exact hone.fraction
  · rintro q hq c hc
    cases hq
    exact isDigit_of_mem_toDigits hc
  · rintro ds hds
    cases hds
    exact Nat.toDigits_ne_nil
  · rintro q hq
    cases hq
    exact Nat.toDigits_ne_nil

/-- The text of a double without a minus sign is one number or the name of the infinity. -/
theorem isNumeral_canonical {x : Float} (h : IsPlus (unpacked x)) :
    canonical x = "Infinity" ∨ IsNumeral (canonical x).toList := by
  have hparts : Binary64.ofFloat x = .infinite false ∨
      ∃ m e, Binary64.ofFloat x = .finite false m e := by
    rw [Binary64.ofFloat_eq]
    generalize unpacked x = u at h
    cases h with
    | infinity => exact .inl rfl
    | zero => exact .inr ⟨_, _, rfl⟩
    | finite => exact .inr ⟨_, _, rfl⟩
  rcases hparts with hx | ⟨m, e, hx⟩
  · left
    simp only [canonical, rounded, hx]
    rfl
  · right
    simp only [canonical, rounded, hx, signed, Bool.false_eq_true, if_false]
    split
    · split
      · rw [String.toList_ofList]
        exact isNumeral_exponent (digital_scientificPlaces ..).trim _
      · split
        · have hzero (c : Char) (hc : c ∈ ['0']) : c.isDigit = true := by
            rw [List.mem_singleton.mp hc]
            rfl
          exact isNumeral_text (p := ⟨['0'], ['0']⟩) ⟨List.cons_ne_nil _ _, hzero, hzero⟩
        · rw [String.toList_ofList]
          exact isNumeral_text (digital_fixedPlaces ..).trim
    · rw [String.toList_ofList]
      exact isNumeral_text (digital_pointed _)

/-! ## Reading it -/

private theorem isPlus_infinity : IsPlus (unpacked (1.0 / 0.0)) := by
  have hplus :
      (match unpacked (1.0 / 0.0) with | .infinity .positive => true | _ => false) = true := by
    decide +kernel
  split at hplus
  · rename_i hu
    rw [hu]
    exact .infinity
  · cases hplus

/-- What is read from digits has no minus sign. -/
theorem isPlus_nearest (n : Nat) (e : Int) : IsPlus (unpacked (nearest n e)) := by
  unfold nearest
  dsimp only
  split
  · exact isPlus_ofScientific _ _ _
  · split
    · exact isPlus_infinity
    · exact isPlus_ofScientific n _ _

/-- A numeral starts with a digit. -/
theorem IsNumeral.exists_digit {s : List Char} (h : IsNumeral s) :
    ∃ c cs, s = c :: cs ∧ c.isDigit = true := by
  obtain ⟨m, rfl, hm, hwhole, -⟩ := h
  obtain ⟨c, cs, hcs⟩ := List.exists_cons_of_ne_nil hwhole
  refine ⟨c, cs ++ (m.pointed ++ m.marked), ?_, hm.whole c (hcs ▸ List.mem_cons_self)⟩
  rw [Token.Numeral.chars, hcs]
  rfl

/-- A number with a point is read as a double without a minus sign. -/
theorem IsNumeral.lexes {s : List Char} (h : IsNumeral s) :
    ∃ y, IsPlus (unpacked y) ∧ Token.Lexes Token.Apart s [.decimal y] := by
  obtain ⟨m, rfl, hm, hwhole, hfraction, hpower⟩ := h
  have hdigits : (m.whole ++ m.fraction.getD []).isEmpty = false :=
    List.isEmpty_eq_false_iff.mpr (List.append_ne_nil_of_left_ne_nil hwhole _)
  have hpoint : m.fraction.isNone = false := Option.isNone_eq_false_iff.mpr
    (Option.isSome_iff_ne_none.mpr hfraction)
  have htoken : ∃ n e, m.token = .ok (.decimal (nearest n e)) := by
    unfold Token.Numeral.token
    simp only [hdigits, hpoint, Bool.false_and, Bool.false_eq_true, if_false]
    split
    · rename_i negative ds hp
      have hsome : ds.isEmpty = false := List.isEmpty_eq_false_iff.mpr (hpower _ hp)
      rw [if_neg (by rw [hsome]; decide)]
      exact ⟨_, _, rfl⟩
    · exact ⟨_, _, rfl⟩
  obtain ⟨n, e, htoken⟩ := htoken
  refine ⟨nearest n e, isPlus_nearest n e, fun rest hrest => ?_⟩
  obtain ⟨c, cs, hcs⟩ := List.exists_cons_of_ne_nil hwhole
  have hc : c.isDigit = true := hm.whole c (by rw [hcs]; exact List.mem_cons_self)
  have hend : m.Stops [] := ⟨rfl, fun _ _ => rfl, fun _ => rfl⟩
  have hchars : m.chars = c :: (cs ++ (m.pointed ++ m.marked)) := by
    rw [Token.Numeral.chars, hcs]
    rfl
  have hstops := hend.append hrest fun h => absurd h (List.cons_ne_nil _ _).symm
  exact Token.scanAll_numeral hm hstops htoken hchars (by rw [hc, Bool.true_or])

end Reckoner.Decimal
