import Reckoner.Proofs.Expr.Regrouping
import Reckoner.Proofs.Grammar.Soundness

/-!
# What texts can say

Every token of a text is a natural number of the range, a double without a minus sign, a name
that can be read, a truth value or a sign. So every tree that is read from a text is made from
these.
-/

namespace Reckoner

namespace Token

/-- The token is one that a text can contain. -/
def Legible : Token → Prop
  | integer n => 0 ≤ n ∧ n ≤ Fraction.greatest
  | decimal x => IsPlus (unpacked x)
  | name s => isName s = true
  | _ => True

/-- Signs and brackets can be in any text. -/
theorem legible_of_isMark {t : Token} (h : t.isMark = true) : t.Legible := by
  cases t with
  | integer | decimal | name => cases h
  | _ => trivial

/-- Numbers are read in their range and without a minus. -/
theorem Numeral.legible_token {m : Numeral} {t : Token} (h : m.token = .ok t) : t.Legible := by
  unfold Numeral.token at h
  dsimp only at h
  split at h
  · cases h
  · split at h
    · split at h
      · cases h
      · cases h
        exact Decimal.isPlus_nearest _ _
    · split at h
      · rename_i hsmall
        rw [Bool.and_eq_true, decide_eq_true_eq] at hsmall
        cases h
        exact ⟨Int.natCast_nonneg _, hsmall.2⟩
      · cases h
        exact Decimal.isPlus_nearest _ _

/-- A word is a truth value or a name that can be read. -/
theorem legible_ofWord {c : Char} {cs : List Char} (hc : isWordStart c = true)
    (hcs : ∀ d ∈ cs, isWord d = true) : (ofWord (String.ofList (c :: cs))).Legible := by
  unfold ofWord
  split
  · trivial
  · rename_i htrue
    split
    · trivial
    · rename_i hfalse
      simp only [Legible, isName, String.toList_ofList, hc, List.all_eq_true.mpr hcs, Bool.true_and,
        Bool.and_eq_true, bne_iff_ne]
      exact ⟨htrue, hfalse⟩

/-- The tokens of a text are such tokens. -/
theorem legible_of_scanAll (s : List Char) : ∀ t ∈ (scanAll s).1, t.Legible := by
  fun_induction scanAll s with
  | case1 => exact fun _ ht => absurd ht List.not_mem_nil
  | case2 _ _ _ ih => exact ih
  | case3 => exact fun _ ht => absurd ht List.not_mem_nil
  | case4 c rest hb t rest' hscan ih =>
    have hfirst : t.Legible := by
      cases scanned_of_scan hscan with
      | number _ hn => exact Numeral.legible_token hn
      | word hw => exact legible_ofWord hw fun d hd => List.all_eq_true.mp List.all_takeWhile d hd
      | single _ hc => exact legible_of_isMark (isMark_of_ofChar hc)
      | pair _ _ hc => exact legible_of_isMark (isMark_of_ofPair hc)
    exact List.forall_mem_cons.mpr ⟨hfirst, ih⟩

end Token

namespace Grammar

/-- What is read can be read from a text, if what a chain goes on with can. -/
def Phrase.Legible : Phrase → Prop
  | expression e | sum e | product e | unary e | power e | application e | primary e => e.Legible
  | sides a e | summands a e | factors a e => a.Legible → e.Legible
  | arguments _ es => ∀ e ∈ es, e.Legible
  | moreArguments sofar es => (∀ e ∈ sofar, e.Legible) → ∀ e ∈ es, e.Legible

/-- Trees are read from tokens of texts only as they can be. -/
theorem Derives.legible {φ : Phrase} {ts us : List Token} (h : Derives φ ts us)
    (hts : ∀ t ∈ ts, t.Legible) : φ.Legible := by
  have behind {φ : Phrase} {ts us : List Token} (h : Derives φ ts us)
      (hts : ∀ t ∈ ts, t.Legible) : ∀ t ∈ us, t.Legible := fun t ht => hts t (h.suffix.subset ht)
  have tail {t : Token} {ts : List Token} (hts : ∀ u ∈ t :: ts, u.Legible) :
      ∀ u ∈ ts, u.Legible := fun u hu => hts u (List.mem_cons_of_mem t hu)
  induction h with
  | expression ha _ iha ihc | sum ha _ iha ihc | product ha _ iha ihc =>
    exact ihc (behind ha hts) (iha hts)
  | lastSide | lastSummand | lastFactor | lastArgument => exact id
  | nextSide hb _ ihb ihc =>
    exact fun ha => ihc (behind hb (tail hts)) (.compare ha (ihb (tail hts)))
  | nextSummand _ hb _ ihb ihc | nextFactor _ hb _ ihb ihc =>
    exact fun ha => ihc (behind hb (tail hts)) (.binary ha (ihb (tail hts)))
  | besideName hb _ ihb ihc | besideGroup hb _ ihb ihc =>
    exact fun ha => ihc (behind hb hts) (.binary ha (ihb hts))
  | minus _ ih => exact .neg (ih (tail hts))
  | plus _ ih => exact ih (tail hts)
  | unsigned _ _ ih | base _ _ ih | plain _ _ ih => exact ih hts
  | raised ha _ iha ihb => exact .binary (iha hts) (ihb (tail (behind ha hts)))
  | call _ hp _ ihp iha =>
    cases ihp hts with
    | symbol hs => exact .call hs (iha (tail (behind hp hts)))
  | integer =>
    have hn := hts _ List.mem_cons_self
    exact .exact rfl hn.1 hn.2
  | decimal => exact .real (hts _ List.mem_cons_self)
  | boolean => exact .boolean _
  | name => exact .symbol (hts _ List.mem_cons_self)
  | group _ ih => exact ih (tail hts)
  | braces _ ih => exact .list (ih (tail hts))
  | noArguments => exact nofun
  | arguments _ he _ ihe ihs =>
    exact ihs (behind he hts) (List.forall_mem_singleton.mpr (ihe hts))
  | nextArgument he _ ihe ihs =>
    intro hsofar
    refine ihs (behind he (tail hts)) fun a ha => ?_
    rcases List.mem_append.mp ha with ha | ha
    · exact hsofar a ha
    · rw [List.mem_singleton.mp ha]
      exact ihe (tail hts)

/-- A tree that is read from a text is one that can be. -/
theorem legible_of_parse {s : String} {e : Expr} (h : parse s = .ok e) : e.Legible := by
  obtain ⟨ts, hs, hd, -⟩ := derives_of_parse h
  refine hd.legible fun t ht => Token.legible_of_scanAll s.toList t ?_
  rw [hs]
  exact ht

end Grammar

end Reckoner
