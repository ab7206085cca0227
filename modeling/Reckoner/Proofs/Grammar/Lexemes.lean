import Reckoner.Expr.Token

/-!
# Texts of tokens

How the texts of tokens are read where one follows the other. A sign is read whatever
stands behind it, unless it could be the first stroke of a longer sign; a number or a name
is read as such where no letter, digit, underscore or point goes on. `Lexes ok s ts` says
that `s` is read as the tokens `ts` in front of every rest that is `ok`, and such texts
can be put together.
-/

namespace Reckoner.Token

/-- The first character has a property. -/
def startsWith (p : Char → Bool) (s : List Char) : Bool := s.head?.any p

@[simp] theorem startsWith_nil (p : Char → Bool) : startsWith p [] = false := rfl

@[simp] theorem startsWith_cons (p : Char → Bool) (c : Char) (s : List Char) :
    startsWith p (c :: s) = p c := rfl

theorem startsWith_append {p : Char → Bool} {s : List Char} (h : startsWith p s = true)
    (rest : List Char) : startsWith p (s ++ rest) = true := by
  cases s with
  | nil => cases h
  | cons c s => exact h

/-- A number or a name would go on with this character. -/
def goesOn (c : Char) : Bool := isWord c || c == '.'

/-- No number and no name goes on here. -/
def Apart (s : List Char) : Prop := startsWith goesOn s = false

/-- No sign of one stroke becomes one of two strokes here. -/
def Unstroked (s : List Char) : Prop := startsWith (· == '=') s = false

/-- Anything may follow. -/
def Anything (_ : List Char) : Prop := True

/-- The text is read as the tokens, in front of what is fit to follow. -/
def Lexes (ok : List Char → Prop) (s : List Char) (ts : List Token) : Prop :=
  ∀ rest, ok rest → scanAll (s ++ rest) = (ts ++ (scanAll rest).1, (scanAll rest).2)

variable {ok ok' : List Char → Prop} {s s' : List Char} {ts ts' : List Token}

/-- The condition on what follows may be made stricter. -/
theorem Lexes.mono (h : Lexes ok s ts) (hok : ∀ rest, ok' rest → ok rest) : Lexes ok' s ts :=
  fun rest hr => h rest (hok rest hr)

/-- Texts are read one behind the other. -/
theorem Lexes.append (h : Lexes ok s ts) (h' : Lexes ok' s' ts')
    (hok : ∀ rest, ok' rest → ok (s' ++ rest)) : Lexes ok' (s ++ s') (ts ++ ts') := by
  intro rest hr
  rw [List.append_assoc, h _ (hok rest hr), h' rest hr, List.append_assoc]

theorem Lexes.nil : Lexes ok [] [] := fun _ _ => rfl

theorem scanAll_nil : scanAll [] = ([], none) := by
  rw [scanAll.eq_def]

theorem scanAll_blank {c : Char} {rest : List Char} (hb : Text.isBlank c = true) :
    scanAll (c :: rest) = scanAll rest := by
  rw [scanAll.eq_def]
  exact if_pos hb

/-- A text at whose end anything may stand is read as its tokens. -/
theorem Lexes.scanAll_eq (h : Lexes ok s ts) (hok : ok []) : scanAll s = (ts, none) := by
  have hs := h [] hok
  rwa [List.append_nil, scanAll_nil, List.append_nil] at hs

/-- Reading goes on behind the first token. -/
theorem scanAll_cons {c : Char} {rest rest' : List Char} {t : Token}
    (hb : Text.isBlank c = false) (h : scan c rest = .ok (t, rest')) :
    scanAll (c :: rest) = (t :: (scanAll rest').1, (scanAll rest').2) := by
  rw [scanAll.eq_def]
  dsimp only
  rw [if_neg (by simp [hb])]
  split
  · rename_i he
    rw [h] at he
    cases he
  · rename_i he
    rw [h] at he
    cases he
    rfl

/-- Reading ends where no token can be cut off. -/
theorem scanAll_error {c : Char} {rest : List Char} {e : ParseError}
    (hb : Text.isBlank c = false) (h : scan c rest = .error e) :
    scanAll (c :: rest) = ([], some e) := by
  rw [scanAll.eq_def]
  dsimp only
  rw [if_neg (by simp [hb])]
  split
  · rename_i he
    rw [h] at he
    cases he
    rfl
  · rename_i he
    rw [h] at he
    cases he

/-- A text that is read to its end starts with a token. -/
theorem exists_scan {c : Char} {rest : List Char} {ts : List Token}
    (hb : Text.isBlank c = false) (h : scanAll (c :: rest) = (ts, none)) :
    ∃ t rest' ts', scan c rest = .ok (t, rest') ∧ ts = t :: ts' ∧ scanAll rest' = (ts', none) := by
  cases hs : scan c rest with
  | error e =>
    rw [scanAll_error hb hs] at h
    cases h
  | ok p =>
    rw [scanAll_cons hb hs] at h
    obtain ⟨hts, hnone⟩ := Prod.mk.inj h
    exact ⟨p.1, p.2, (scanAll p.2).1, rfl, hts.symm, Prod.ext rfl hnone⟩

/-- The first token is cut off at the start of the text. -/
theorem exists_scan_of_head {c : Char} {rest : List Char} {t : Token} {ts : List Token}
    (hb : Text.isBlank c = false) (h : (scanAll (c :: rest)).1 = t :: ts) :
    ∃ rest', scan c rest = .ok (t, rest') := by
  cases hs : scan c rest with
  | error e =>
    rw [scanAll_error hb hs] at h
    cases h
  | ok p =>
    rw [scanAll_cons hb hs] at h
    cases h
    exact ⟨p.2, rfl⟩

/-! ## Classes of characters -/

/-- No character of a number, a name or a sign is blank. -/
theorem isBlank_of_toNat {c : Char} (h : 0x21 ≤ c.toNat ∧ c.toNat ≤ 0x7E) :
    Text.isBlank c = false := by
  simp only [Text.isBlank, Bool.or_eq_false_iff, Bool.and_eq_false_iff, beq_eq_false_iff_ne,
    decide_eq_false_iff_not]
  omega

theorem toNat_of_isDigit {c : Char} (h : c.isDigit = true) : 48 ≤ c.toNat ∧ c.toNat ≤ 57 := by
  simp only [Char.isDigit, Bool.and_eq_true, decide_eq_true_eq, UInt32.le_iff_toNat_le] at h
  exact h

theorem toNat_of_isAlpha {c : Char} (h : c.isAlpha = true) :
    (65 ≤ c.toNat ∧ c.toNat ≤ 90) ∨ (97 ≤ c.toNat ∧ c.toNat ≤ 122) := by
  change (decide (c.val ≥ 'A'.val ∧ c.val ≤ 'Z'.val) ||
    (decide (c.val ≥ 'a'.val) && decide (c.val ≤ 'z'.val))) = true at h
  simp only [Bool.or_eq_true, Bool.and_eq_true, decide_eq_true_eq, UInt32.le_iff_toNat_le] at h
  exact h

theorem toNat_of_isWordStart {c : Char} (h : isWordStart c = true) :
    65 ≤ c.toNat ∧ c.toNat ≤ 122 := by
  simp only [isWordStart, Bool.or_eq_true, beq_iff_eq] at h
  rcases h with h | rfl
  · rcases toNat_of_isAlpha h with h | h <;> omega
  · decide

/-- The first character of a name starts no number. -/
theorem isWordStart_not_digit {c : Char} (h : isWordStart c = true) :
    (c.isDigit || c == '.') = false := by
  have hn := toNat_of_isWordStart h
  rw [Bool.or_eq_false_iff, beq_eq_false_iff_ne]
  refine ⟨Bool.eq_false_iff.mpr fun hd => ?_, ?_⟩
  · have := toNat_of_isDigit hd
    omega
  · rintro rfl
    revert hn
    decide

theorem isWord_of_isWordStart {c : Char} (h : isWordStart c = true) : isWord c = true := by
  simp only [isWordStart, Bool.or_eq_true] at h
  simp only [isWord, Char.isAlphanum, Bool.or_eq_true]
  exact h.imp .inl id

theorem isWord_of_isDigit {c : Char} (h : c.isDigit = true) : isWord c = true := by
  simp only [isWord, Char.isAlphanum, h, Bool.or_true, Bool.true_or]

/-- No character of a number or a name is blank. -/
theorem isBlank_of_goesOn {c : Char} (h : goesOn c = true) : Text.isBlank c = false := by
  refine isBlank_of_toNat ?_
  simp only [goesOn, isWord, Char.isAlphanum, Bool.or_eq_true, beq_iff_eq] at h
  rcases h with ((h | h) | rfl) | rfl
  · rcases toNat_of_isAlpha h with h | h <;> omega
  · have := toNat_of_isDigit h
    omega
  · decide
  · decide

/-! ## Signs -/

/-- The token is a sign or a bracket. -/
def isMark : Token → Bool
  | operation _ | relation _ | opening _ | closing _ | comma => true
  | _ => false

theorem isMark_of_ofChar {c : Char} {t : Token} (h : ofChar? c = some t) : t.isMark = true := by
  unfold ofChar? at h
  split at h <;> cases h <;> rfl

theorem isMark_of_ofPair {c : Char} {t : Token} (h : ofPair? c = some t) : t.isMark = true := by
  unfold ofPair? at h
  split at h <;> cases h <;> rfl

/-- Whatever starts no number and no word is read as a sign. -/
theorem scan_eq_scanSign {c : Char} {rest : List Char}
    (hd : (c.isDigit || c == '.') = false) (hw : isWordStart c = false) :
    scan c rest = scanSign c rest := by
  simp only [scan, hd, hw, Bool.false_eq_true, if_false]

/-- A sign of one stroke is read where no longer one stands. -/
theorem scanSign_single {c : Char} {t : Token} {rest : List Char} (h : ofChar? c = some t)
    (hr : ofPair? c = none ∨ Unstroked rest) : scanSign c rest = .ok (t, rest) := by
  unfold scanSign
  split
  · rcases hr with hp | hu
    · simp only [hp, ofSingle, h, Except.map]
    · cases hu
  · simp only [ofSingle, h, Except.map]

/-- Most signs are read whatever stands behind them. -/
theorem scanAll_sign {c : Char} {t : Token} {rest : List Char} (h : ofChar? c = some t)
    (hr : ofPair? c = none ∨ Unstroked rest) :
    scanAll (c :: rest) = (t :: (scanAll rest).1, (scanAll rest).2) := by
  have hc : Text.isBlank c = false ∧ (c.isDigit || c == '.') = false ∧ isWordStart c = false := by
    unfold ofChar? at h
    split at h <;> first | decide | cases h
  refine scanAll_cons hc.1 ?_
  rw [scan_eq_scanSign hc.2.1 hc.2.2, scanSign_single h hr]

/-- A sign of two strokes is read as such. -/
theorem scanAll_pair {c : Char} {t : Token} {rest : List Char} (h : ofPair? c = some t) :
    scanAll (c :: '=' :: rest) = (t :: (scanAll rest).1, (scanAll rest).2) := by
  unfold ofPair? at h
  split at h <;> cases h <;> exact scanAll_cons (by decide) rfl

/-- A sign is read in front of anything but a stroke that makes it longer. -/
theorem lexes_mark {t : Token} (h : t.isMark = true) : Lexes Unstroked t.text.toList [t] := by
  intro rest hr
  cases t with
  | operation f => cases f <;> exact scanAll_sign rfl (.inr hr)
  | relation f =>
    cases f with
    | less => exact scanAll_sign rfl (.inr hr)
    | greater => exact scanAll_sign rfl (.inr hr)
    | _ => exact scanAll_cons (by decide) rfl
  | opening b => cases b <;> exact scanAll_sign rfl (.inr hr)
  | closing b => cases b <;> exact scanAll_sign rfl (.inr hr)
  | comma => exact scanAll_sign rfl (.inr hr)
  | _ => cases h

/-- A closing bracket is read in front of anything. -/
theorem lexes_closing (b : Bracket) : Lexes Anything b.closer.toList [.closing b] := by
  intro rest _
  cases b <;> exact scanAll_sign rfl (.inl rfl)

/-! ## Kinds of tokens -/

/-- The token is a number. -/
def isNumber : Token → Bool
  | integer _ | decimal _ => true
  | _ => false

/-- A numeral is read as a number. -/
theorem Numeral.isNumber_token {m : Numeral} {t : Token} (h : m.token = .ok t) :
    t.isNumber = true := by
  simp only [Numeral.token] at h
  split at h
  · cases h
  · split at h
    · split at h
      · cases h
      · cases h
        rfl
    · split at h <;> cases h <;> rfl

theorem isNumber_of_isMark {t : Token} (h : t.isMark = true) : t.isNumber = false := by
  cases t <;> first | rfl | cases h

/-- How a token that was read starts, and what it leaves. -/
inductive Scanned (c : Char) (rest : List Char) : Token → List Char → Prop where
  | number {t : Token} : (c.isDigit || c == '.') = true →
    (Numeral.span (c :: rest)).1.token = .ok t →
    Scanned c rest t (Numeral.span (c :: rest)).2
  | word : isWordStart c = true →
    Scanned c rest (ofWord (String.ofList (c :: rest.takeWhile isWord))) (rest.dropWhile isWord)
  | single {t : Token} : isWordStart c = false → ofChar? c = some t →
    ofPair? c = none ∨ Unstroked rest → Scanned c rest t rest
  | pair {t : Token} {rest' : List Char} : isWordStart c = false → rest = '=' :: rest' →
    ofPair? c = some t → Scanned c rest t rest'

private theorem ofChar_of_ofSingle {c : Char} {t : Token} {rest rest' : List Char}
    (h : (ofSingle c).map (fun t => (t, rest)) = .ok (t, rest')) :
    ofChar? c = some t ∧ rest' = rest := by
  obtain ⟨a, ha, he⟩ := map_eq_ok h
  cases he
  unfold ofSingle at ha
  split at ha
  · cases ha
    exact ⟨‹_›, rfl⟩
  · cases ha

/-- A token is a number, a word, or a sign of one or two strokes. -/
theorem scanned_of_scan {c : Char} {rest rest' : List Char} {t : Token}
    (h : scan c rest = .ok (t, rest')) : Scanned c rest t rest' := by
  unfold scan at h
  split at h
  · rename_i hc
    obtain ⟨a, ha, he⟩ := map_eq_ok h
    cases he
    exact .number hc ha
  · split at h
    · rename_i hw
      cases h
      exact .word hw
    · rename_i hw
      have hw : isWordStart c = false := by simpa using hw
      unfold scanSign at h
      split at h
      · split at h
        · cases h
          exact .pair hw rfl ‹_›
        · obtain ⟨hc, rfl⟩ := ofChar_of_ofSingle h
          exact .single hw hc (.inl ‹_›)
      · rename_i hstroke
        obtain ⟨hc, rfl⟩ := ofChar_of_ofSingle h
        refine .single hw hc (.inr ?_)
        cases rest' with
        | nil => rfl
        | cons d rest' =>
          rw [Unstroked, startsWith_cons, beq_eq_false_iff_ne]
          rintro rfl
          exact hstroke rest' rfl

/-! ## Numbers and names -/

/-- A name that is no truth value. -/
def isName (s : String) : Bool :=
  match s.toList with
  | [] => false
  | c :: cs => isWordStart c && cs.all isWord && s != "True" && s != "False"

/-- A span ends where the property does. -/
theorem span_stop {p : Char → Bool} {s rest : List Char} (hs : ∀ c ∈ s, p c = true)
    (hr : startsWith p rest = false) :
    (s ++ rest).takeWhile p = s ∧ (s ++ rest).dropWhile p = rest := by
  have hrest : rest.takeWhile p = [] ∧ rest.dropWhile p = rest := by
    cases rest with
    | nil => exact ⟨rfl, rfl⟩
    | cons c rest =>
      have hc : ¬ p c = true := by simpa using hr
      exact ⟨List.takeWhile_cons_of_neg hc, List.dropWhile_cons_of_neg hc⟩
  rw [List.takeWhile_append_of_pos hs, List.dropWhile_append_of_pos hs, hrest.1, hrest.2]
  exact ⟨List.append_nil s, rfl⟩

/-- What neither goes on a number nor a name has no such character in front. -/
theorem Apart.of_goesOn {p : Char → Bool} {s : List Char} (h : Apart s)
    (hp : ∀ c, p c = true → goesOn c = true) : startsWith p s = false := by
  cases s with
  | nil => rfl
  | cons c s =>
    refine Bool.eq_false_iff.mpr fun hc => ?_
    have hg := hp c hc
    rw [Apart, startsWith_cons, hg] at h
    cases h

/-- A word is read up to where no letter, digit or underscore goes on. -/
theorem scanAll_word {c : Char} {cs rest : List Char} (hc : isWordStart c = true)
    (hcs : ∀ d ∈ cs, isWord d = true) (hr : startsWith isWord rest = false) :
    scanAll (c :: (cs ++ rest)) =
      (ofWord (String.ofList (c :: cs)) :: (scanAll rest).1, (scanAll rest).2) := by
  have hn := toNat_of_isWordStart hc
  have hs := span_stop hcs hr
  refine scanAll_cons (isBlank_of_toNat (by omega)) ?_
  simp only [scan, isWordStart_not_digit hc, hc, Bool.false_eq_true, if_false, if_true, hs.1, hs.2]

/-- A word is read as one token. -/
theorem lexes_word {c : Char} {cs : List Char} (hc : isWordStart c = true)
    (hcs : ∀ d ∈ cs, isWord d = true) :
    Lexes Apart (c :: cs) [ofWord (String.ofList (c :: cs))] :=
  fun _ hr => scanAll_word hc hcs (hr.of_goesOn fun d hd => by simp only [goesOn, hd, Bool.true_or])

/-- A name is read as the name. -/
theorem lexes_name {s : String} (h : isName s = true) : Lexes Apart s.toList [.name s] := by
  unfold isName at h
  split at h
  · cases h
  · rename_i c cs hs
    simp only [Bool.and_eq_true, bne_iff_ne, ne_eq, List.all_eq_true] at h
    have hl := lexes_word h.1.1.1 h.1.1.2
    rw [← hs, String.ofList_toList, ofWord, if_neg h.1.2, if_neg h.2] at hl
    exact hl

/-- Digits are read as their number, where it is in range. -/
theorem lexes_digits {ds : List Char} (hne : ds ≠ []) (hd : ∀ c ∈ ds, c.isDigit = true)
    (hn : (Nat.ofDigitChars 10 ds 0 : Int) ≤ Fraction.greatest) :
    Lexes Apart ds [.integer (Nat.ofDigitChars 10 ds 0)] := by
  intro rest hr
  obtain ⟨c, cs, rfl⟩ := List.exists_cons_of_ne_nil hne
  have hc := hd c (by simp)
  have hcn := toNat_of_isDigit hc
  have hs := span_stop hd (hr.of_goesOn (p := Char.isDigit) fun d hd => by
    simp [goesOn, isWord_of_isDigit hd])
  have hspan : Numeral.span ((c :: cs) ++ rest) = (⟨c :: cs, none, none⟩, rest) := by
    have hf : Numeral.spanFraction rest = (none, rest) := by
      unfold Numeral.spanFraction
      split
      · cases hr
      · rfl
    have hp : Numeral.spanPower rest = (none, rest) := by
      unfold Numeral.spanPower
      split
      · cases hr
      · cases hr
      · rfl
    simp only [Numeral.span, Decimal.spanDigits, hs.1, hs.2, hf, hp]
  refine scanAll_cons (isBlank_of_toNat (by omega)) ?_
  simp only [scan, hc, Bool.true_or, if_true]
  rw [List.cons_append] at hspan
  rw [List.append_eq, hspan]
  simp only [Numeral.token, Option.getD_none, List.append_nil, List.isEmpty_cons,
    Bool.false_eq_true, if_false, Option.isNone_none, Bool.true_and, decide_eq_true hn, if_true,
    Except.map]

/-- A natural number is written in decimal digits. -/
theorem toList_toString_natCast (m : Nat) : (toString (m : Int)).toList = Nat.toDigits 10 m := by
  rw [Int.toString_eq_repr]
  exact Nat.toList_repr

/-- A negative number is written with a minus in front. -/
theorem toString_neg {n : Int} (h : n < 0) : toString n = "-" ++ toString (-n) := by
  rw [Int.toString_eq_repr, Int.toString_eq_repr, Int.repr_eq_if, Int.repr_eq_if,
    if_neg (by omega), if_pos (by omega)]

/-- A natural number of the range is read back. -/
theorem lexes_integer {n : Int} (h : 0 ≤ n ∧ n ≤ Fraction.greatest) :
    Lexes Apart (toString n).toList [.integer n] := by
  obtain ⟨m, rfl⟩ := Int.eq_ofNat_of_zero_le h.1
  have hd : Nat.ofDigitChars 10 (Nat.toDigits 10 m) 0 = m := Nat.ofDigitChars_ten_toDigits
  have hdigits (c : Char) (hc : c ∈ Nat.toDigits 10 m) : c.isDigit = true :=
    Nat.isDigit_of_mem_toDigits (by decide) (by decide) hc
  have hl := lexes_digits Nat.toDigits_ne_nil hdigits (by rw [hd]; exact h.2)
  rw [toList_toString_natCast]
  rwa [hd] at hl

end Reckoner.Token
