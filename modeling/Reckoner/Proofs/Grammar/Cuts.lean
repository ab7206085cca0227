import Mathlib.Data.List.Basic
import Reckoner.Proofs.Grammar.Juxtaposition

/-!
# Texts in two parts

Where a text that is read to its end is cut in two, a token ends at the cut or stands across it.
No token stands across the start of a bracket, so the text in front of a bracket is read as it is
read alone. Numbers are the only tokens that go on with a sign: with a point behind digits, and
with a minus sign behind the letter of an exponent.
-/

namespace Reckoner.Token

variable {c d : Char} {s r w x : List Char} {t : Token} {ts us : List Token} {m : Numeral}

/-- A token is read as before where the text ends earlier. -/
theorem scan_front (h : scan c (w ++ (s ++ r)) = .ok (t, s ++ r)) :
    scan c (w ++ s) = .ok (t, s) := by
  refine scan_behind h (fun p _ hp => ?_) fun _ hm => ?_
  · refine Bool.eq_false_iff.mpr fun hs => ?_
    rw [startsWith_append hs] at hp
    cases hp
  · refine Bool.eq_false_iff.mpr fun hs => ?_
    obtain ⟨hE, hd⟩ := Bool.and_eq_true_iff.mp hs
    cases s with
    | nil => cases hE
    | cons d s =>
      have hmark : marksPower (d :: s ++ r) = true :=
        Bool.and_eq_true_iff.mpr ⟨hE, startsWith_append hd r⟩
      rw [hmark] at hm
      cases hm

/-- A token ends where a text is cut in two, or one stands across the cut. -/
inductive Cut (s r : List Char) (ts : List Token) : Prop
  | between {us vs} : scanAll s = (us, none) → scanAll r = (vs, none) → ts = us ++ vs → Cut s r ts
  | across {s' c u w r' us t vs} : s = s' ++ c :: u → r = w ++ r' → w ≠ [] →
    scan c (u ++ (w ++ r')) = .ok (t, r') → scanAll s' = (us, none) → scanAll r' = (vs, none) →
      ts = us ++ t :: vs → Cut s r ts

/-- A text that is read to its end can be cut anywhere. -/
theorem cut_of_scanAll (hb : ∀ c ∈ s, Text.isBlank c = false)
    (h : scanAll (s ++ r) = (ts, none)) : Cut s r ts := by
  induction hl : s.length using Nat.strongRecOn generalizing s ts with
  | ind n ih =>
    subst hl
    cases s with
    | nil => exact .between scanAll_nil h rfl
    | cons c s =>
      have hc := hb c List.mem_cons_self
      obtain ⟨t, behind, us, hs, rfl, hus⟩ := exists_scan hc h
      rw [List.append_eq] at hs
      obtain ⟨w, hw⟩ := exists_of_scan hs
      rcases List.append_eq_append_iff.mp hw with ⟨v, rfl, rfl⟩ | ⟨s', rfl, rfl⟩
      · by_cases hv : v = []
        · subst hv
          have hfront : scan c (s ++ []) = .ok (t, []) := scan_front hs
          rw [List.append_nil] at hfront
          have hfirst : scanAll (c :: s) = ([t], none) := by
            rw [scanAll_cons hc hfront, scanAll_nil]
          exact .between hfirst hus rfl
        · exact .across (List.nil_append _).symm rfl hv hs scanAll_nil hus rfl
      · rw [List.append_assoc] at hs
        have hlength : s'.length < (c :: (w ++ s')).length := by
          rw [List.length_cons, List.length_append]
          omega
        have hrest := ih s'.length hlength
          (fun d hd => hb d (List.mem_cons_of_mem c (List.mem_append_right w hd))) hus rfl
        cases hrest with
        | @between us' _ hs' hr hts =>
          have hfirst : scanAll (c :: (w ++ s')) = (t :: us', none) := by
            rw [scanAll_cons hc (scan_front hs), hs']
          exact .between hfirst hr (by rw [hts, List.cons_append])
        | @across s'' d u v r' us' t' vs hs'' hr hv hscan hus' hvs hts =>
          subst hs''
          rw [List.append_assoc] at hs
          have hfirst : scanAll (c :: (w ++ s'')) = (t :: us', none) := by
            rw [scanAll_cons hc (scan_front hs), hus']
          refine .across ?_ hr hv hscan hfirst hvs (by rw [hts, List.cons_append])
          rw [List.cons_append, List.append_assoc]

/-- The last token takes the end of the text. -/
theorem exists_scan_last (hb : ∀ c ∈ s, Text.isBlank c = false)
    (h : scanAll s = (us ++ [t], none)) : ∃ s' c w, s = s' ++ c :: w ∧ scan c w = .ok (t, []) := by
  induction hl : s.length using Nat.strongRecOn generalizing s us with
  | ind n ih =>
    subst hl
    cases s with
    | nil =>
      rw [scanAll_nil] at h
      exact absurd (Prod.mk.inj h).1.symm (List.append_ne_nil_of_right_ne_nil us nofun)
    | cons c s =>
      obtain ⟨t', behind, ts, hs, hts, hbehind⟩ := exists_scan (hb c List.mem_cons_self) h
      obtain ⟨w, rfl⟩ := exists_of_scan hs
      have hb' (d : Char) (hd : d ∈ behind) : Text.isBlank d = false :=
        hb d (List.mem_cons_of_mem c (List.mem_append_right w hd))
      cases us with
      | nil =>
        obtain ⟨rfl, rfl⟩ := List.cons.inj hts
        cases behind with
        | nil => exact ⟨[], c, _, rfl, hs⟩
        | cons d behind =>
          obtain ⟨_, _, _, -, hnil, -⟩ := exists_scan (hb' d List.mem_cons_self) hbehind
          cases hnil
      | cons u us =>
        obtain ⟨rfl, rfl⟩ := List.cons.inj hts
        have hlength : behind.length < (c :: (w ++ behind)).length := by
          rw [List.length_cons, List.length_append]
          omega
        obtain ⟨s', d, v, rfl, hlast⟩ := ih behind.length hlength hb' hbehind rfl
        exact ⟨c :: (w ++ s'), d, v, by rw [List.cons_append, List.append_assoc], hlast⟩

/-! ## Inside a token -/

/-- What a token in front of a text is made of: the characters of a number, those of a word, or the
strokes of a sign. -/
inductive Made (c : Char) (w r : List Char) (t : Token) : Prop
  | number {m : Numeral} : m.Proper → m.Stops r → m.chars = c :: w → m.token = .ok t → Made c w r t
  | word : isWordStart c = true → (∀ d ∈ w, isWord d = true) →
    t = ofWord (String.ofList (c :: w)) → Made c w r t
  | single : ofChar? c = some t → w = [] → Made c w r t
  | pair : ofPair? c = some t → w = ['='] → Made c w r t

/-- Every token is made of the characters that it takes. -/
theorem made_of_scan (h : scan c (w ++ r) = .ok (t, r)) : Made c w r t := by
  generalize hrest : w ++ r = rest at h
  cases scanned_of_scan h with
  | number hc hn =>
    cases hm : Numeral.span (c :: rest) with
    | mk m r =>
      rw [hm] at hn hrest
      obtain ⟨hs, hproper, hstops⟩ := Numeral.span_spec hm
      rw [← hrest, ← List.cons_append] at hs
      exact .number hproper hstops (List.append_cancel_right hs).symm hn
  | word hw =>
    have hword : w = rest.takeWhile isWord := by
      refine List.append_cancel_right (hrest.trans ?_)
      exact List.takeWhile_append_dropWhile.symm
    subst hword
    exact .word hw (List.all_eq_true.mp List.all_takeWhile) rfl
  | single _ ht _ => exact .single ht (List.self_eq_append_left.mp hrest.symm)
  | pair _ hpair ht =>
    rw [hpair] at hrest
    exact .pair ht (List.append_cancel_right (hrest.trans List.singleton_append.symm))

/-- A sign starts with no letter, digit, underscore or point. -/
theorem goesOn_of_ofChar (h : ofChar? c = some t) : goesOn c = false := by
  unfold ofChar? at h
  split at h <;> first | decide | cases h

/-- A sign of two strokes starts with no character of a word. -/
theorem goesOn_of_ofPair (h : ofPair? c = some t) : goesOn c = false := by
  unfold ofPair? at h
  split at h <;> first | decide | cases h

/-- No token goes on with a bracket. -/
theorem scanAll_at_bracket {b : Char} (hbracket : ofChar? b = some t) (hpair : ofPair? b = none)
    (hn : isNumeric b = false) (hb : ∀ c ∈ s, Text.isBlank c = false)
    (h : scanAll (s ++ b :: r) = (ts, none)) :
    ∃ us vs, scanAll s = (us, none) ∧ scanAll r = (vs, none) ∧ ts = us ++ t :: vs := by
  cases cut_of_scanAll hb h with
  | @between us vs hs hr hts =>
    rw [scanAll_sign hbracket (.inl hpair)] at hr
    obtain ⟨rfl, hnone⟩ := Prod.mk.inj hr
    exact ⟨us, _, hs, Prod.ext rfl hnone, hts⟩
  | @across s' c u w r' us t' vs _ hr hw hscan _ _ _ =>
    obtain ⟨w, rfl⟩ : ∃ w', w = b :: w' := by
      cases w with
      | nil => exact absurd rfl hw
      | cons d w => exact ⟨w, by rw [(List.cons.inj hr).1]⟩
    have hmem : b ∈ u ++ b :: w := List.mem_append_right u List.mem_cons_self
    rw [← List.append_assoc] at hscan
    cases made_of_scan hscan with
    | number hm _ hchars _ =>
      have hnumeric := isNumeric_of_mem hm (hchars ▸ List.mem_cons_of_mem c hmem)
      rw [hn] at hnumeric
      cases hnumeric
    | word _ hword _ =>
      have hgoes := goesOn_of_ofChar hbracket
      rw [goesOn, hword b hmem, Bool.true_or] at hgoes
      cases hgoes
    | single _ hnil =>
      rw [hnil] at hmem
      cases hmem
    | pair _ hstroke =>
      rw [hstroke] at hmem
      cases List.mem_singleton.mp hmem
      cases hbracket

/-- What ends with a letter, a digit, an underscore or a point ends an operand. -/
theorem endsOperand_of_scan (h : scan c w = .ok (t, [])) (hlast : (c :: w).getLast? = some d)
    (hd : goesOn d = true) : t.endsOperand = true := by
  rw [← List.append_nil w] at h
  cases made_of_scan h with
  | number _ _ _ ht =>
    have hnumber := Numeral.isNumber_token ht
    cases t <;> first | rfl | cases hnumber
  | word _ _ ht => rw [ht, endsOperand_ofWord]
  | single ht hnil =>
    subst hnil
    obtain rfl : c = d := Option.some.inj hlast
    rw [goesOn_of_ofChar ht] at hd
    cases hd
  | pair ht hstroke =>
    subst hstroke
    cases hlast
    cases hd

/-! ## Inside a number -/

namespace Numeral

/-- In front of the exponent there are digits and a point. -/
theorem digit_or_point (hm : m.Proper) (hd : d ∈ m.whole ++ m.pointed) :
    d.isDigit = true ∨ d = '.' := by
  rcases List.mem_append.mp hd with hd | hd
  · exact .inl (hm.whole d hd)
  · unfold pointed at hd
    split at hd
    · rename_i ds hds
      rcases List.mem_cons.mp hd with rfl | hd
      · exact .inr rfl
      · exact .inl (hm.fraction ds hds d hd)
    · cases hd

/-- The exponent has no point. -/
theorem point_notMem_marked (hm : m.Proper) : '.' ∉ m.marked := by
  intro hmem
  unfold marked at hmem
  split at hmem
  · rename_i ds hds
    rcases List.mem_cons.mp hmem with hE | hmem
    · cases hE
    · rcases List.mem_cons.mp hmem with hsign | hmem
      · cases hsign
      · cases hm.power _ hds '.' hmem
  · rename_i ds hds
    rcases List.mem_cons.mp hmem with hE | hmem
    · cases hE
    · cases hm.power _ hds '.' hmem
  · cases hmem

/-- The only minus sign of a number stands behind the letter of the exponent. -/
theorem of_minus (hm : m.Proper) (h : m.chars = x ++ '-' :: w) :
    x = m.whole ++ m.pointed ++ ['E'] ∧ ∀ e ∈ w, e.isDigit = true := by
  have hmantissa : '-' ∉ m.whole ++ m.pointed := fun hmem => by
    rcases digit_or_point hm hmem with hd | hd <;> cases hd
  have hmem : '-' ∈ m.marked := by
    have hmem : '-' ∈ m.whole ++ m.pointed ++ m.marked := by
      rw [List.append_assoc, ← chars, h]
      exact List.mem_append_right x List.mem_cons_self
    exact (List.mem_append.mp hmem).resolve_left hmantissa
  rw [chars, ← List.append_assoc] at h
  unfold marked at h hmem
  split at h
  · rename_i ds hds
    have hpower : ∀ e ∈ ds, e.isDigit = true := hm.power _ hds
    have hE : '-' ∉ m.whole ++ m.pointed ++ ['E'] := fun hmem =>
      (List.mem_append.mp hmem).elim hmantissa fun hmem => by cases List.mem_singleton.mp hmem
    have heq : m.whole ++ m.pointed ++ ['E'] ++ '-' :: ds = x ++ '-' :: w := by
      rw [← h, List.append_assoc _ ['E'], List.singleton_append]
    obtain ⟨rfl, -, rfl⟩ :=
      (List.append_cons_inj_of_notMem hE fun hmem => by cases hpower '-' hmem).mp heq
    exact ⟨rfl, hpower⟩
  · rename_i ds hds
    rw [hds] at hmem
    rcases List.mem_cons.mp hmem with hE | hmem
    · cases hE
    · cases hm.power _ hds '-' hmem
  · rename_i hnone
    rw [hnone] at hmem
    cases hmem

/-- The only point of a number stands behind the digits before it. -/
theorem of_point (hm : m.Proper) (h : m.chars = x ++ '.' :: w) : x = m.whole := by
  have hwhole : '.' ∉ m.whole := fun hmem => by cases hm.whole '.' hmem
  rw [chars] at h
  cases hf : m.fraction with
  | none =>
    have hmem : '.' ∈ m.whole ++ (m.pointed ++ m.marked) :=
      h ▸ List.mem_append_right x List.mem_cons_self
    rw [pointed, hf, List.nil_append] at hmem
    exact ((List.mem_append.mp hmem).elim hwhole (point_notMem_marked hm)).elim
  | some ds =>
    have hrest : '.' ∉ ds ++ m.marked := fun hmem =>
      (List.mem_append.mp hmem).elim (fun hmem => by cases hm.fraction ds hf '.' hmem)
        (point_notMem_marked hm)
    rw [pointed, hf, List.cons_append] at h
    exact ((List.append_cons_inj_of_notMem hwhole hrest).mp h).1.symm

/-- A number without an exponent can be read if it has digits. -/
theorem exists_token (hp : m.power = none) (hne : m.whole ++ m.fraction.getD [] ≠ []) :
    ∃ t, m.token = .ok t := by
  unfold token
  dsimp only
  rw [if_neg (by rwa [List.isEmpty_iff]), hp]
  dsimp only
  split
  · exact ⟨_, rfl⟩
  · exact ⟨_, rfl⟩

/-- A number that can be read has digits. -/
theorem digits_ne_nil_of_token (h : m.token = .ok t) : m.whole ++ m.fraction.getD [] ≠ [] := by
  unfold token at h
  dsimp only at h
  split at h
  · cases h
  · rename_i hne
    rwa [List.isEmpty_iff] at hne

end Numeral

/-- A number without an exponent is read where it stops. -/
theorem scanAll_unmarked (hm : m.Proper) (hp : m.power = none)
    (hne : m.whole ++ m.fraction.getD [] ≠ []) (hr : m.Stops r) :
    ∃ t : Token, t.isNumber = true ∧
      scanAll (m.chars ++ r) = (t :: (scanAll r).1, (scanAll r).2) := by
  obtain ⟨t, ht⟩ := Numeral.exists_token hp hne
  have hchars : ∃ c cs, m.chars = c :: cs ∧ (c.isDigit || c == '.') = true := by
    rw [Numeral.chars]
    cases hw : m.whole with
    | cons c cs => exact ⟨c, _, rfl, by rw [hm.whole c (hw ▸ List.mem_cons_self), Bool.true_or]⟩
    | nil =>
      cases hf : m.fraction with
      | none => exact absurd (by rw [hw, hf]; rfl) hne
      | some ds => exact ⟨'.', _, by rw [Numeral.pointed, hf]; rfl, rfl⟩
  obtain ⟨c, cs, hcs, hc⟩ := hchars
  exact ⟨t, Numeral.isNumber_token ht, scanAll_numeral hm hr ht hcs hc⟩

end Reckoner.Token
