import Reckoner.Proofs.Grammar.Cuts
import Reckoner.Proofs.Grammar.Enclosure
import Reckoner.Proofs.Memory.Atoms
import Reckoner.Proofs.Validation.Blanks
import Reckoner.Proofs.Validation.Words

/-!
# Atomic values without brackets

An atomic value is written without brackets where no letter, digit, underscore or point stands
beside it. Numbers can still draw in a part of it: the exponent of a number before it takes its
digits, and its last number takes a point or the exponent behind it. Even then the value can be
read alone, and it is an expression if its tokens are spaced.
-/

namespace Reckoner

open Reckoner.Expr Grammar Text

namespace Token

variable {c d : Char} {a r v w z : List Char} {t : Token} {ts us : List Token} {m : Numeral}

/-- A number and the letter of an exponent are left of a number that goes on with a sign. -/
theorem exists_tokens_in_front (hm : m.Proper) (ht : m.token = .ok t)
    (hchars : m.chars = v ++ d :: w) (hd : isWord d = false) :
    (∀ e ∈ v, goesOn e = true) ∧ (v ≠ [] → ∃ us, scanAll v = (us, none) ∧ Spaced us) := by
  have hdigit {e : Char} (he : e.isDigit = true) : goesOn e = true := by
    rw [goesOn, isWord_of_isDigit he, Bool.true_or]
  have hnumeric : isNumeric d = true :=
    isNumeric_of_mem hm (hchars ▸ List.mem_append_right v List.mem_cons_self)
  simp only [isNumeric, Bool.or_eq_true, beq_iff_eq] at hnumeric
  rcases hnumeric with ((hd' | rfl) | rfl) | rfl
  · rw [isWord_of_isDigit hd'] at hd
    cases hd
  · obtain rfl := Numeral.of_point hm hchars
    refine ⟨fun e he => hdigit (hm.whole e he), fun hne => ?_⟩
    have hproper : Numeral.Proper ⟨m.whole, none, none⟩ :=
      Numeral.proper_unmarked hm.whole fun _ hds => absurd hds (Option.not_mem_none _)
    obtain ⟨t', -, hscan⟩ := scanAll_unmarked (r := []) hproper rfl
      (by rwa [Option.getD_none, List.append_nil]) ⟨rfl, fun _ _ => rfl, fun _ => rfl⟩
    rw [scanAll_nil] at hscan
    have hself : Numeral.chars ⟨m.whole, none, none⟩ ++ [] = m.whole := by
      rw [Numeral.chars, Numeral.pointed, Numeral.marked, List.append_nil, List.append_nil,
        List.append_nil]
    exact ⟨[t'], hself ▸ hscan, trivial⟩
  · cases hd
  · obtain ⟨rfl, -⟩ := Numeral.of_minus hm hchars
    have hproper := Numeral.proper_unmarked hm.whole hm.fraction
    have hdigits := Numeral.digits_ne_nil_of_token ht
    obtain ⟨t', -, hscan⟩ := scanAll_unmarked (r := ['E']) hproper rfl hdigits
      ⟨rfl, fun _ _ => rfl, fun _ => rfl⟩
    have hletter : scanAll ['E'] = ([.name "E"], none) := by
      have hword : scanAll ('E' :: ([] ++ [])) =
          (ofWord (String.ofList ['E']) :: (scanAll []).1, (scanAll []).2) :=
        scanAll_word (by decide) (List.forall_mem_nil _) rfl
      rw [scanAll_nil] at hword
      exact hword
    have hself : Numeral.chars ⟨m.whole, m.fraction, none⟩ ++ ['E'] =
        m.whole ++ m.pointed ++ ['E'] := by
      rw [Numeral.chars, Numeral.marked, List.append_nil]
      rfl
    rw [hletter, hself] at hscan
    refine ⟨fun e he => ?_, fun _ => ⟨[t', .name "E"], hscan, fun _ => rfl, trivial⟩⟩
    rcases List.mem_append.mp he with he | he
    · rcases Numeral.digit_or_point hm he with he | rfl
      · exact hdigit he
      · rfl
    · obtain rfl := List.mem_singleton.mp he
      rfl

/-- Digits are read as a number in front of what may stand behind an operand. -/
theorem exists_tokens_behind_digits (hw : ∀ e ∈ w, e.isDigit = true) (hne : w ≠ [])
    (hv : ∀ e ∈ v, goesOn e = true) (hdigit : startsWith Char.isDigit v = false)
    (hmark : marksPower v = false) (hs : scanAll v = (us, none)) (ht : t.endsOperand = true)
    (hspaced : Spaced (t :: us)) : ∃ us, scanAll (w ++ v) = (us, none) ∧ Spaced us := by
  have hproper : Numeral.Proper ⟨w, none, none⟩ :=
    Numeral.proper_unmarked hw fun _ hds => absurd hds (Option.not_mem_none _)
  have hchars : Numeral.chars ⟨w, none, none⟩ = w := by
    rw [Numeral.chars, Numeral.pointed, Numeral.marked, List.append_nil, List.append_nil]
  have hleaf := hspaced.headIs_isLeaf ht
  have hpoint : startsWith (· == '.') v = false := by
    refine Bool.eq_false_iff.mpr fun hpoint => ?_
    have hstart : startsWith (fun c => c.isDigit || c == '.') (dropBlanks v) = true := by
      rw [dropBlanks_eq_self fun e he => isBlank_of_goesOn (hv e he)]
      cases v with
      | nil => cases hpoint
      | cons c v => exact Bool.or_eq_true_iff.mpr (.inr hpoint)
    rw [headIs_isLeaf hs hstart] at hleaf
    cases hleaf
  obtain ⟨u, -, hscan⟩ := scanAll_unmarked hproper rfl
    (by rwa [Option.getD_none, List.append_nil]) ⟨hdigit, fun _ _ => hpoint, fun _ => hmark⟩
  rw [hchars, hs] at hscan
  exact ⟨u :: us, hscan, hspaced.tail.cons fun _ => hleaf⟩

/-- A word that looks like an exponent does not stand between operands. -/
theorem marksPower_eq_false {f : Bool} {n : Nat} {s : List Char} {before : List Token}
    (hE : NoExponent f n s) (hb : ∀ e ∈ s, isBlank e = false)
    (hs : (scanAll s).1 = before ++ t :: (us ++ ts)) (ht : t.endsOperand = true)
    (hv : ∀ e ∈ v, goesOn e = true) (hus : scanAll v = (us, none))
    (hspaced : Spaced (t :: us)) : marksPower v = false := by
  refine Bool.eq_false_iff.mpr fun hmark => ?_
  obtain ⟨hletter, hnext⟩ := Bool.and_eq_true_iff.mp hmark
  cases v with
  | nil => cases hletter
  | cons c v =>
    obtain rfl : c = 'E' := by simpa using hletter
    cases v with
    | nil => cases hnext
    | cons d v =>
      have hd : d.isDigit = true := by
        rw [List.tail_cons, startsWith_cons, Bool.or_eq_true, beq_iff_eq] at hnext
        rcases hnext with rfl | hd
        · cases hv '-' (List.mem_cons_of_mem _ List.mem_cons_self)
        · exact hd
      obtain ⟨u, rest, us', hscan, rfl, -⟩ := exists_scan (by decide) hus
      have hleaf := hspaced.headIs_isLeaf ht
      rw [headIs_cons] at hleaf
      cases scanned_of_scan hscan with
      | number hc => cases hc
      | single hw => cases hw
      | pair hw => cases hw
      | word =>
        rw [List.takeWhile_cons_of_pos (isWord_of_isDigit hd)] at hleaf hs
        rw [eq_name_of_ofWord hleaf, List.cons_append] at hs
        rw [List.append_cons] at hs
        obtain ⟨w, hw, htext, -⟩ := exists_word_of_tokens hE hb hs
        have hexponent := hE w hw
        have hname : w.name = 'E' :: d :: v.takeWhile isWord := String.ofList_injective htext
        rw [Identifier.isExponent, hname] at hexponent
        exact Bool.false_ne_true (hexponent.symm.trans hd)

/-- Behind a sign only a number goes on with letters, digits, underscores or points, and only with
the digits of its exponent. -/
theorem digits_of_across {u : List Char} (h : scan c (u ++ (w ++ r)) = .ok (t, r))
    (hlast : (c :: u).getLast? = some d) (hd : goesOn d = false) (hw : w ≠ [])
    (hgoes : ∀ e ∈ w, goesOn e = true) :
    t.isNumber = true ∧ (∀ e ∈ w, e.isDigit = true) ∧ startsWith Char.isDigit r = false := by
  rw [← List.append_assoc] at h
  cases made_of_scan h with
  | number hm hstops hchars ht =>
    obtain ⟨x, hx⟩ := List.getLast?_eq_some_iff.mp hlast
    rw [← List.cons_append, hx, List.append_assoc, List.singleton_append] at hchars
    have hnumeric : isNumeric d = true :=
      isNumeric_of_mem hm (hchars ▸ List.mem_append_right x List.mem_cons_self)
    obtain rfl : d = '-' := by
      simp only [isNumeric, Bool.or_eq_true, beq_iff_eq] at hnumeric
      rcases hnumeric with ((hd' | rfl) | rfl) | rfl
      · rw [goesOn, isWord_of_isDigit hd', Bool.true_or] at hd
        cases hd
      · cases hd
      · cases hd
      · rfl
    exact ⟨Numeral.isNumber_token ht, (Numeral.of_minus hm hchars).2, hstops.digit⟩
  | word hc hword _ =>
    have hd' : isWord d = true := by
      rcases List.mem_cons.mp (List.mem_of_getLast? hlast) with rfl | hmem
      · exact isWord_of_isWordStart hc
      · exact hword d (List.mem_append_left w hmem)
    rw [goesOn, hd', Bool.true_or] at hd
    cases hd
  | single _ hnil => exact absurd (List.append_eq_nil_iff.mp hnil).2 hw
  | pair _ hstroke =>
    obtain ⟨e, he⟩ := List.exists_mem_of_ne_nil w hw
    obtain rfl := List.mem_singleton.mp (hstroke ▸ List.mem_append_right u he)
    cases hgoes '=' he

/-- Behind a letter, a digit, an underscore or a point only a number goes on with a sign. -/
theorem number_of_across {u : List Char} (h : scan c (u ++ (d :: w ++ r)) = .ok (t, r))
    (hlast : ∀ e ∈ (c :: u).getLast?, goesOn e = true) (hd : isWord d = false) :
    ∃ m : Numeral, m.Proper ∧ m.token = .ok t ∧ m.chars = (c :: u) ++ d :: w := by
  rw [← List.append_assoc] at h
  have hmem : d ∈ u ++ d :: w := List.mem_append_right u List.mem_cons_self
  cases made_of_scan h with
  | number hm _ hchars ht => exact ⟨_, hm, ht, hchars⟩
  | word _ hword _ =>
    rw [hword d hmem] at hd
    cases hd
  | single _ hnil =>
    rw [hnil] at hmem
    cases hmem
  | pair hpair hstroke =>
    have hnil : u = [] := by
      have hlength := congrArg List.length hstroke
      rw [List.length_append, List.length_cons, List.length_singleton] at hlength
      exact List.length_eq_zero_iff.mp (by omega)
    subst hnil
    have hgoes := goesOn_of_ofPair hpair
    rw [hlast c rfl] at hgoes
    cases hgoes

/-- A text that ends with a letter, a digit, an underscore or a point ends an operand. -/
theorem exists_last_token {s : List Char} (hb : ∀ e ∈ s, isBlank e = false)
    (h : scanAll s = (us, none)) (hlast : s.getLast? = some d) (hd : goesOn d = true) :
    ∃ us' t, us = us' ++ [t] ∧ t.endsOperand = true := by
  rcases List.eq_nil_or_concat us with rfl | ⟨us', t, rfl⟩
  · cases s with
    | nil => cases hlast
    | cons c s =>
      obtain ⟨_, _, _, -, hnil, -⟩ := exists_scan (hb c List.mem_cons_self) h
      cases hnil
  · rw [List.concat_eq_append] at h ⊢
    obtain ⟨s', c, w, rfl, hscan⟩ := exists_scan_last hb h
    rw [List.getLast?_append_of_ne_nil _ (List.cons_ne_nil c w)] at hlast
    exact ⟨us', t, rfl, endsOperand_of_scan hscan hlast hd⟩

/-- What starts in the text and ends in the part behind it starts in that part, if nothing else can
stand at the end of the part in front. -/
theorem exists_append_of_getLast {s x : List Char} (ha : ∀ e ∈ a.getLast?, goesOn e = false)
    (h : a ++ v = s ++ x) (hx : ∀ e ∈ x, goesOn e = true) :
    ∃ v', s = a ++ v' ∧ v = v' ++ x := by
  rcases List.append_eq_append_iff.mp h with hright | ⟨y, rfl, rfl⟩
  · exact hright
  · rcases List.eq_nil_or_concat y with rfl | ⟨y, e, rfl⟩
    · exact ⟨[], by rw [List.append_nil, List.append_nil], rfl⟩
    · rw [List.concat_eq_append] at ha hx
      have hlast : (s ++ (y ++ [e])).getLast? = some e := by
        rw [← List.append_assoc, List.getLast?_concat]
      have hgoes := hx e (List.mem_append_left v (List.mem_append_right y List.mem_cons_self))
      rw [ha e hlast] at hgoes
      cases hgoes

/-- The number before an atomic text takes its first digits, and the rest is read behind it. -/
theorem exists_tokens_behind_number {f : Bool} {n : Nat} {s s' u : List Char} {before : List Token}
    (hE : NoExponent f n s) (hb : ∀ e ∈ s, isBlank e = false)
    (hs : (scanAll s).1 = before ++ t :: (us ++ ts))
    (ha : ∀ e ∈ (s' ++ c :: u).getLast?, goesOn e = false)
    (hv : ∀ e ∈ w ++ r, goesOn e = true) (hw : w ≠ []) (hscan : scan c (u ++ (w ++ r)) = .ok (t, r))
    (hus : scanAll r = (us, none)) (hspaced : Spaced (t :: us)) :
    ∃ us, scanAll (w ++ r) = (us, none) ∧ Spaced us := by
  obtain ⟨d, hd⟩ : ∃ d, (c :: u).getLast? = some d :=
    ⟨_, List.getLast?_eq_some_getLast (List.cons_ne_nil c u)⟩
  have hlast : (s' ++ c :: u).getLast? = some d := by
    rw [List.getLast?_append_of_ne_nil _ (List.cons_ne_nil c u), hd]
  obtain ⟨hnumber, hdigits, hstart⟩ := digits_of_across hscan hd (ha d hlast) hw
    fun e he => hv e (List.mem_append_left r he)
  have hends : t.endsOperand = true := by
    cases t <;> first | rfl | cases hnumber
  have hgoes (e : Char) (he : e ∈ r) : goesOn e = true := hv e (List.mem_append_right w he)
  have hmark := marksPower_eq_false hE hb hs hends hgoes hus hspaced
  exact exists_tokens_behind_digits hdigits hw hgoes hstart hmark hus hends hspaced

/-- The last number of an atomic text takes a point or an exponent behind it, and is read without
these as well. -/
theorem exists_tokens_before_mark {s u z : List Char} (hb : ∀ e ∈ a ++ v, isBlank e = false)
    (ha : ∀ e ∈ a.getLast?, goesOn e = false) (hv : ∀ e ∈ v, goesOn e = true) (hne : v ≠ [])
    (hz : startsWith isWord (w ++ z) = false) (hw : w ≠ []) (hav : a ++ v = s ++ c :: u)
    (hscan : scan c (u ++ (w ++ z)) = .ok (t, z)) (hs : scanAll s = (us, none))
    (hspaced : Spaced (us ++ t :: ts)) : ∃ us, scanAll v = (us, none) ∧ Spaced us := by
  obtain ⟨d, w, rfl⟩ := List.exists_cons_of_ne_nil hw
  have hlast : (c :: u).getLast? = v.getLast? := by
    rw [← List.getLast?_append_of_ne_nil s (List.cons_ne_nil c u), ← hav,
      List.getLast?_append_of_ne_nil a hne]
  obtain ⟨m, hm, ht, hchars⟩ := number_of_across hscan
    (fun e he => hv e (List.mem_of_getLast? (hlast ▸ he))) hz
  obtain ⟨hgoes, htokens⟩ := exists_tokens_in_front hm ht hchars hz
  obtain ⟨v', rfl, rfl⟩ := exists_append_of_getLast ha hav hgoes
  rcases List.eq_nil_or_concat v' with rfl | ⟨v', e, rfl⟩
  · exact htokens (List.cons_ne_nil c u)
  · -- an operand in front of the number is not spaced from it
    rw [List.concat_eq_append] at hs hb hv
    have hlast' : (a ++ (v' ++ [e])).getLast? = some e := by
      rw [← List.append_assoc, List.getLast?_concat]
    obtain ⟨us', t', rfl, hends⟩ := exists_last_token
      (fun e he => hb e (by rw [← List.append_assoc]; exact List.mem_append_left _ he)) hs
      hlast' (hv e (List.mem_append_left _ (List.mem_append_right v' List.mem_cons_self)))
    rw [List.append_assoc] at hspaced
    have hneighbours : Spaced (t' :: t :: ts) := hspaced.right
    have hleaf := hneighbours.1 hends
    rw [isLeaf_of_isNumber (Numeral.isNumber_token ht)] at hleaf
    cases hleaf

/-- An atomic text between other characters can be read alone, and its tokens are spaced. -/
theorem exists_tokens_between {f : Bool} {n : Nat} (hb : ∀ e ∈ a ++ v ++ z, isBlank e = false)
    (ha : ∀ e ∈ a.getLast?, goesOn e = false) (hv : ∀ e ∈ v, goesOn e = true) (hne : v ≠ [])
    (hz : startsWith isWord z = false) (hE : NoExponent f n (a ++ v ++ z))
    (h : scanAll (a ++ v ++ z) = (ts, none)) (hspaced : Spaced ts) :
    ∃ us, scanAll v = (us, none) ∧ Spaced us := by
  have hbav (e : Char) (he : e ∈ a ++ v) : isBlank e = false :=
    hb e (List.mem_append_left z he)
  have hba (e : Char) (he : e ∈ a) : isBlank e = false := hbav e (List.mem_append_left v he)
  cases cut_of_scanAll hbav h with
  | @between us vs hav _ hts =>
    subst hts
    have hspaced' := hspaced.left
    cases cut_of_scanAll hba hav with
    | between _ hv' hus => exact ⟨_, hv', (hus ▸ hspaced').right⟩
    | across hac hvw hw hscan _ hr hus =>
      subst hac hvw hus
      exact exists_tokens_behind_number hE hb (by rw [h, List.append_assoc, List.cons_append]) ha
        hv hw hscan hr hspaced'.right
  | across hav hzw hw hscan hs _ hts =>
    subst hzw hts
    exact exists_tokens_before_mark hbav ha hv hne hz hw hav hscan hs hspaced

end Token

namespace Grammar

/-- An atomic text with spaced tokens is an expression. -/
theorem exists_parse_of_atomic {v : String} {ts : List Token}
    (hv : ∀ c ∈ v.toList, Token.goesOn c = true) (hne : v.toList ≠ [])
    (hs : Token.scanAll v.toList = (ts, none)) (hspaced : Token.Spaced ts) :
    ∃ e, parse v = .ok e := by
  have hts : ts ≠ [] := by
    rintro rfl
    obtain ⟨c, rest, hv'⟩ := List.exists_cons_of_ne_nil hne
    rw [hv'] at hs hv
    obtain ⟨_, _, _, -, hnil, -⟩ :=
      Token.exists_scan (Token.isBlank_of_goesOn (hv c List.mem_cons_self)) hs
    cases hnil
  have hread {e : Expr} (h : Nested 0 (.expression e) ts []) (hheight : e.height ≤ 2) :
      ∃ e, parse v = .ok e := by
    refine ⟨e, (parse_of_nested hs h).trans (if_pos ⟨by decide, ?_⟩)⟩
    rw [depth_eq_height]
    exact hheight.trans (by decide)
  have hsign {t : Token} (ht : t.isLeaf = true) : t.isSummandSign = false := by
    cases t <;> first | rfl | cases ht
  rcases Token.tokens_of_goesOn hv hs hspaced hts with
    ⟨t, rfl, hleaf | ⟨s, rfl⟩⟩ | ⟨t, s, rfl, hleaf⟩
  · obtain ⟨e, -, hheight, hn⟩ := Token.exists_primary hleaf
    exact hread ((hn []).expression_of_primary (hsign hleaf)) (by omega)
  · exact hread (Nested.name.expression_of_primary rfl) (Nat.le_succ 1)
  · obtain ⟨e, hname, hheight, hn⟩ := Token.exists_primary hleaf
    have hfirst : Nested 0 (.unary e) [t, .name s] [.name s] :=
      .unsigned (hsign hleaf) (.base rfl (.plain (hn [.name s]) fun _ => rfl))
    have hfactor : Nested 0 (.power (.symbol s)) [.name s] [] :=
      .base rfl (.plain .name fun _ => rfl)
    refine hread (.expression (.sum (.product hfirst (.besideName hfactor (.lastFactor rfl)))
      (.lastSummand rfl)) (.lastSide rfl)) ?_
    rw [height, hheight, height]
    exact Nat.le_refl 2

end Grammar

end Reckoner
