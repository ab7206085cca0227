import Reckoner.Memory
import Reckoner.Proofs.Grammar.Completeness
import Reckoner.Proofs.Grammar.Soundness
import Reckoner.Proofs.Memory.Writing

/-!
# Atomic values

A value of letters, digits, underscores and points that is an expression is a number, a truth
value, a name, or a number in front of a name.
-/

namespace Reckoner

open Reckoner.Expr Grammar

namespace Token

variable {c : Char} {rest rest' : List Char} {t : Token} {ts : List Token}

/-- Letters, digits, underscores and points make up numbers and words. -/
theorem number_or_word (hc : goesOn c = true) (h : scan c rest = .ok (t, rest')) :
    t.isNumber = true ∧ rest' = (Numeral.span (c :: rest)).2 ∨
      t = ofWord (String.ofList (c :: rest.takeWhile isWord)) ∧ rest' = rest.dropWhile isWord := by
  cases scanned_of_scan h with
  | number _ hn => exact .inl ⟨Numeral.isNumber_token hn, rfl⟩
  | word => exact .inr ⟨rfl, rfl⟩
  | single _ hs =>
    unfold ofChar? at hs
    split at hs <;> cases hs <;> cases hc
  | pair _ _ hs =>
    unfold ofPair? at hs
    split at hs <;> cases hs <;> cases hc

/-- A word that is no truth value is a name. -/
theorem eq_name_of_ofWord {s : String} (h : (ofWord s).isLeaf = false) : ofWord s = name s := by
  unfold ofWord at h ⊢
  split
  · rename_i hs
    rw [if_pos hs] at h
    cases h
  · rename_i hs
    rw [if_neg hs] at h
    split
    · rename_i hs'
      rw [if_pos hs'] at h
      cases h
    · rfl

/-- No token follows a word. -/
theorem eq_nil_of_word (hv : ∀ d ∈ rest, goesOn d = true)
    (hs : scanAll (rest.dropWhile isWord) = (ts, none)) (ht : t.endsOperand = true)
    (hspaced : Spaced (t :: ts)) : ts = [] := by
  have hdrop : ∀ d ∈ rest.dropWhile isWord, goesOn d = true :=
    fun d hd => hv d ((List.dropWhile_suffix _).mem hd)
  have hapart := Filling.apart_of_spaced (fun d hd => isBlank_of_goesOn (hdrop d hd)) hs
    (startsWith_dropWhile isWord rest) hspaced ht
  cases hr : rest.dropWhile isWord with
  | nil =>
    rw [hr, scanAll_nil] at hs
    exact (Prod.mk.inj hs).1.symm
  | cons d rest' =>
    rw [hr, Apart, startsWith_cons, hdrop d (hr ▸ List.mem_cons_self)] at hapart
    cases hapart

/-- The tokens of an atomic value. -/
theorem tokens_of_goesOn {v : List Char} (hv : ∀ c ∈ v, goesOn c = true)
    (hs : scanAll v = (ts, none)) (hspaced : Spaced ts) (hne : ts ≠ []) :
    (∃ t, ts = [t] ∧ (t.isLeaf = true ∨ ∃ s, t = .name s)) ∨
      ∃ t s, ts = [t, .name s] ∧ t.isLeaf = true := by
  cases v with
  | nil =>
    rw [scanAll_nil] at hs
    exact absurd (Prod.mk.inj hs).1.symm hne
  | cons c rest =>
    have hc := hv c List.mem_cons_self
    obtain ⟨t, rest', ts', hscan, rfl, hs'⟩ := exists_scan (isBlank_of_goesOn hc) hs
    rcases number_or_word hc hscan with ⟨hnumber, rfl⟩ | ⟨rfl, rfl⟩
    · have hleaf := isLeaf_of_isNumber hnumber
      have hends : t.endsOperand = true := by
        cases t <;> first | rfl | cases hleaf
      have hv' : ∀ d ∈ (Numeral.span (c :: rest)).2, goesOn d = true :=
        fun d hd => hv d ((Text.span_suffix _).mem hd)
      cases hr : (Numeral.span (c :: rest)).2 with
      | nil =>
        rw [hr, scanAll_nil] at hs'
        obtain ⟨rfl, -⟩ := Prod.mk.inj hs'
        exact .inl ⟨t, rfl, .inl hleaf⟩
      | cons d rest'' =>
        rw [hr] at hs' hv'
        have hd := hv' d List.mem_cons_self
        obtain ⟨u, us, ts'', hscan', rfl, hs''⟩ := exists_scan (isBlank_of_goesOn hd) hs'
        have hother := hspaced.1 hends
        rcases number_or_word hd hscan' with ⟨hnumber', -⟩ | ⟨rfl, rfl⟩
        · rw [isLeaf_of_isNumber hnumber'] at hother
          cases hother
        · have hnil := eq_nil_of_word (fun e he => hv' e (List.mem_cons_of_mem d he)) hs''
            (endsOperand_ofWord _) hspaced.tail
          rw [hnil, eq_name_of_ofWord hother]
          exact .inr ⟨t, _, rfl, hleaf⟩
    · have hnil := eq_nil_of_word (fun e he => hv e (List.mem_cons_of_mem c he)) hs'
        (endsOperand_ofWord _) hspaced
      refine .inl ⟨_, by rw [hnil], ?_⟩
      cases hleaf : (ofWord (String.ofList (c :: rest.takeWhile isWord))).isLeaf with
      | true => exact .inl rfl
      | false => exact .inr ⟨_, eq_name_of_ofWord hleaf⟩

/-- A leaf is an operand that is no symbol and has nothing below it. -/
theorem exists_primary (h : t.isLeaf = true) : ∃ e : Expr, e.symbolName? = none ∧ e.height = 1 ∧
    ∀ us, Nested 0 (.primary e) (t :: us) us := by
  cases t with
  | integer n => exact ⟨_, rfl, rfl, fun _ => .integer⟩
  | decimal x => exact ⟨_, rfl, rfl, fun _ => .decimal⟩
  | boolean b => exact ⟨_, rfl, rfl, fun _ => .boolean⟩
  | _ => cases h

end Token

/-- A product to the end is an expression. -/
private theorem derives_of_product {e : Expr} {ts : List Token} (h : Derives (.product e) ts []) :
    Derives (.expression e) ts [] :=
  .expression (.sum h (.lastSummand rfl)) (.lastSide rfl)

/-- An operand is read with its signs where no bracket and no power sign follows. -/
private theorem unary_of_primary {e : Expr} {ts us : List Token} (h : Derives (.primary e) ts us)
    (hcall : headIs Token.opensCall us = false)
    (hpower : headIs (Token.isSign (.operation .power)) us = false) : Derives (.unary e) ts us :=
  .unary_of_power (.base hpower (.plain h fun _ => hcall))

/-- An atomic value is a single operand or a number in front of a name. -/
theorem Filling.atom_of_isAtomic {v : String} {e : Expr} {ts : List Token}
    (hv : parse v = .ok e) (hs : Token.scanAll v.toList = (ts, none))
    (h : Derives (.expression e) ts []) (ha : Memory.isAtomic v.toList = true) : Atom ts e := by
  rw [Memory.isAtomic, Bool.and_eq_true, List.all_eq_true] at ha
  have hne : ts ≠ [] := by
    rintro rfl
    exact Nat.not_lt_zero _ (h.length_lt rfl)
  rcases Token.tokens_of_goesOn ha.2 hs (h.spaced trivial rfl).1 hne with
    ⟨t, rfl, hleaf | ⟨s, rfl⟩⟩ | ⟨t, s, rfl, hleaf⟩
  · obtain ⟨e', hname, -, hd⟩ := Token.exists_primary hleaf
    have hwhole := derives_of_product
      (.product (unary_of_primary (hd []).derives rfl rfl) (.lastFactor rfl))
    rw [← eq_of_derives hv hs hwhole]
    exact .leaf hleaf hname fun us => (hd us).derives
  · have hwhole := derives_of_product
      (.product (unary_of_primary (.name (s := s)) rfl rfl) (.lastFactor rfl))
    rw [← eq_of_derives hv hs hwhole]
    exact .name s
  · obtain ⟨e', hname, -, hd⟩ := Token.exists_primary hleaf
    have hwhole := derives_of_product (.product (unary_of_primary (hd [.name s]).derives rfl rfl)
      (.besideName (.base rfl (.plain .name fun _ => rfl)) (.lastFactor rfl)))
    rw [← eq_of_derives hv hs hwhole]
    exact .product hleaf hname fun us => (hd us).derives

end Reckoner
