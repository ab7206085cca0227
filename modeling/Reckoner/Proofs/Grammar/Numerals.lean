import Reckoner.Proofs.Grammar.Lexemes

/-!
# Where numbers stop

A number stops where no digit, no second point and no exponent goes on. What follows a number
can therefore be exchanged for anything that starts alike, and a text that ends in no unfinished
exponent is read the same way in front of everything that continues neither a number, nor a
name, nor a sign.
-/

namespace Reckoner.Token

/-- The exponent of a number starts here. -/
def marksPower (s : List Char) : Bool :=
  startsWith (· == 'E') s && startsWith (fun c => c == '-' || c.isDigit) s.tail

namespace Numeral

/-- The digits after the point, with the point. -/
def pointed (m : Numeral) : List Char :=
  match m.fraction with
  | some ds => '.' :: ds
  | none => []

/-- The exponent with its mark. -/
def marked (m : Numeral) : List Char :=
  match m.power with
  | some (true, ds) => 'E' :: '-' :: ds
  | some (false, ds) => 'E' :: ds
  | none => []

/-- The number as it is written. -/
def chars (m : Numeral) : List Char := m.whole ++ (m.pointed ++ m.marked)

/-- The parts are digits, and an exponent without a sign has some. -/
structure Proper (m : Numeral) : Prop where
  /-- The digits before the point. -/
  whole : ∀ c ∈ m.whole, c.isDigit = true
  /-- The digits after the point. -/
  fraction : ∀ ds ∈ m.fraction, ∀ c ∈ ds, c.isDigit = true
  /-- The digits of the exponent. -/
  power : ∀ p ∈ m.power, ∀ c ∈ p.2, c.isDigit = true
  /-- Without a sign there is a digit behind the mark. -/
  marked : ∀ ds, m.power = some (false, ds) → ds ≠ []

/-- Without an exponent, only digits are asked for. -/
theorem proper_unmarked {whole : List Char} {fraction : Option (List Char)}
    (hwhole : ∀ c ∈ whole, c.isDigit = true)
    (hfraction : ∀ ds ∈ fraction, ∀ c ∈ ds, c.isDigit = true) :
    Proper ⟨whole, fraction, none⟩ where
  whole := hwhole
  fraction := hfraction
  power _ hp := absurd hp (Option.not_mem_none _)
  marked _ hp := absurd hp.symm (Option.some_ne_none _)

/-- The number does not go on here. -/
structure Stops (m : Numeral) (r : List Char) : Prop where
  /-- No digit follows. -/
  digit : startsWith Char.isDigit r = false
  /-- No first point follows. -/
  point : m.fraction = none → m.power = none → startsWith (· == '.') r = false
  /-- No first exponent follows. -/
  mark : m.power = none → marksPower r = false

variable {m : Numeral} {s r : List Char}

private theorem spanDigits_stop {ds : List Char} (hd : ∀ c ∈ ds, c.isDigit = true)
    (hr : startsWith Char.isDigit r = false) : Decimal.spanDigits (ds ++ r) = (ds, r) := by
  rw [Decimal.spanDigits, (span_stop hd hr).1, (span_stop hd hr).2]

private theorem isDigit_of_mem_spanDigits {c : Char} (h : c ∈ (Decimal.spanDigits s).1) :
    c.isDigit = true := List.all_eq_true.mp List.all_takeWhile c h

private theorem startsWith_spanDigits (s : List Char) :
    startsWith Char.isDigit (Decimal.spanDigits s).2 = false := by
  induction s with
  | nil => rfl
  | cons c s ih =>
    by_cases hc : c.isDigit = true
    · rwa [Decimal.spanDigits, List.dropWhile_cons_of_pos hc]
    · rw [Decimal.spanDigits, List.dropWhile_cons_of_neg hc, startsWith_cons]
      simpa using hc

/-- Without a mark there is no exponent. -/
private theorem spanPower_none (h : marksPower r = false) : spanPower r = (none, r) := by
  unfold spanPower
  split
  · cases h
  · rename_i c rest _
    split
    · rename_i hc
      rw [marksPower, List.tail_cons, startsWith_cons, startsWith_cons, hc, Bool.or_true] at h
      cases h
    · rfl
  · rfl

/-- What is cut off in front of a number that stops is the number. -/
theorem span_chars (hm : m.Proper) (hr : m.Stops r) : span (m.chars ++ r) = (m, r) := by
  obtain ⟨whole, fraction, power⟩ := m
  have hpower : spanPower (marked ⟨whole, fraction, power⟩ ++ r) = (power, r) := by
    rcases power with - | ⟨- | -, ds⟩
    · exact spanPower_none (hr.mark rfl)
    · have hd := hm.power _ rfl
      obtain ⟨c, cs, rfl⟩ := List.exists_cons_of_ne_nil (hm.marked ds rfl)
      have hc : c.isDigit = true := hd c List.mem_cons_self
      have hminus : c ≠ '-' := by
        rintro rfl
        cases hc
      have hspan := spanDigits_stop hd hr.digit
      simp only [marked, List.cons_append] at hspan ⊢
      unfold spanPower
      split
      · rename_i heq
        exact absurd (List.cons.inj (List.cons.inj heq).2).1 hminus
      · rename_i heq
        cases heq
        rw [if_pos hc, hspan]
      · rename_i hne
        exact absurd rfl (hne _ _)
    · have hspan := spanDigits_stop (hm.power _ rfl) hr.digit
      simp only [marked, List.cons_append, spanPower, hspan]
  have hmarked : startsWith Char.isDigit (marked ⟨whole, fraction, power⟩ ++ r) = false := by
    rcases power with - | ⟨- | -, ds⟩
    · exact hr.digit
    · rfl
    · rfl
  have hfraction : spanFraction (pointed ⟨whole, fraction, power⟩ ++
      (marked ⟨whole, fraction, power⟩ ++ r)) =
      (fraction, marked ⟨whole, fraction, power⟩ ++ r) := by
    cases fraction with
    | some ds =>
      have hspan := spanDigits_stop (hm.fraction ds rfl) hmarked
      simp only [pointed, List.cons_append, spanFraction, hspan]
    | none =>
      have hpoint : startsWith (· == '.') (marked ⟨whole, none, power⟩ ++ r) = false := by
        rcases power with - | ⟨- | -, ds⟩
        · exact hr.point rfl rfl
        · rfl
        · rfl
      simp only [pointed, List.nil_append]
      unfold spanFraction
      split
      · rename_i heq
        rw [heq] at hpoint
        cases hpoint
      · rfl
  have hpointed : startsWith Char.isDigit (pointed ⟨whole, fraction, power⟩ ++
      (marked ⟨whole, fraction, power⟩ ++ r)) = false := by
    cases fraction with
    | some ds => rfl
    | none => exact hmarked
  have hwhole := spanDigits_stop hm.whole hpointed
  simp only [span, chars, List.append_assoc, hwhole, hfraction, hpower]

private theorem spanFraction_spec (s : List Char) :
    ∃ f r, spanFraction s = (f, r) ∧
      s = (match f with | some ds => '.' :: ds | none => []) ++ r ∧
      (∀ ds ∈ f, ∀ c ∈ ds, c.isDigit = true) ∧
      (f = none → startsWith (· == '.') r = false) ∧
      (startsWith Char.isDigit s = false → startsWith Char.isDigit r = false) := by
  unfold spanFraction
  split
  · rename_i rest
    refine ⟨_, _, rfl, ?_, ?_, nofun, fun _ => startsWith_spanDigits rest⟩
    · rw [List.cons_append, Decimal.spanDigits_append]
    · rintro ds hds c hc
      cases hds
      exact isDigit_of_mem_spanDigits hc
  · rename_i hne
    refine ⟨none, s, rfl, rfl, nofun, fun _ => ?_, id⟩
    cases s with
    | nil => rfl
    | cons c s =>
      rw [startsWith_cons, beq_eq_false_iff_ne]
      rintro rfl
      exact hne s rfl

/-- What is read as an exponent and what is left make up the text. -/
theorem spanPower_spec (s : List Char) (hs : startsWith Char.isDigit s = false) :
    ∃ p r, spanPower s = (p, r) ∧
      s = (match p with
        | some (true, ds) => 'E' :: '-' :: ds
        | some (false, ds) => 'E' :: ds
        | none => []) ++ r ∧
      (∀ q ∈ p, ∀ c ∈ q.2, c.isDigit = true) ∧ (∀ ds, p = some (false, ds) → ds ≠ []) ∧
      startsWith Char.isDigit r = false ∧ (p = none → r = s ∧ marksPower r = false) := by
  unfold spanPower
  split
  · rename_i rest
    refine ⟨_, _, rfl, ?_, ?_, fun _ h => (by cases h), startsWith_spanDigits rest,
      fun h => by cases h⟩
    · rw [List.cons_append, List.cons_append, Decimal.spanDigits_append]
    · rintro q hq c hc
      cases hq
      exact isDigit_of_mem_spanDigits hc
  · rename_i c rest hne
    split
    · rename_i hc
      refine ⟨_, _, rfl, ?_, ?_, ?_, startsWith_spanDigits _, fun h => by cases h⟩
      · rw [List.cons_append, Decimal.spanDigits_append]
      · rintro q hq d hd
        cases hq
        exact isDigit_of_mem_spanDigits hd
      · rintro ds hds rfl
        rw [Decimal.spanDigits, List.takeWhile_cons_of_pos hc] at hds
        cases hds
    · rename_i hc
      refine ⟨none, _, rfl, rfl, fun _ hq => (by cases hq), fun _ h => (by cases h), hs,
        fun _ => ⟨rfl, ?_⟩⟩
      have hminus : c ≠ '-' := by
        rintro rfl
        exact hne rfl
      simpa [marksPower, hminus] using hc
  · rename_i hminus hother
    refine ⟨none, s, rfl, rfl, fun _ hq => (by cases hq), fun _ h => (by cases h), hs,
      fun _ => ⟨rfl, ?_⟩⟩
    rcases s with - | ⟨c, - | ⟨d, s⟩⟩
    · rfl
    · rw [marksPower, List.tail_cons, startsWith_nil, Bool.and_false]
    · rw [marksPower, startsWith_cons, Bool.and_eq_false_iff, beq_eq_false_iff_ne]
      left
      rintro rfl
      exact hother _ _ rfl

/-- A number is cut off as it is written, and does not go on behind that. -/
theorem span_spec (h : span s = (m, r)) : s = m.chars ++ r ∧ m.Proper ∧ m.Stops r := by
  obtain ⟨f, r₁, hf, hs₁, hfd, hfp, hfs⟩ := spanFraction_spec (Decimal.spanDigits s).2
  obtain ⟨p, r₂, hp, hs₂, hpd, hpm, hps, hpn⟩ :=
    spanPower_spec r₁ (hfs (startsWith_spanDigits s))
  have hspan : span s = (⟨(Decimal.spanDigits s).1, f, p⟩, r₂) := by
    simp only [span, hf, hp]
  rw [hspan] at h
  cases h
  refine ⟨?_, ⟨fun c => isDigit_of_mem_spanDigits, hfd, hpd, hpm⟩, ⟨hps, ?_, fun h => (hpn h).2⟩⟩
  · have hmarked : r₁ = marked ⟨(Decimal.spanDigits s).1, f, p⟩ ++ r := hs₂
    have hpointed : (Decimal.spanDigits s).2 =
        pointed ⟨(Decimal.spanDigits s).1, f, p⟩ ++ r₁ := hs₁
    rw [chars, List.append_assoc, List.append_assoc, ← hmarked, ← hpointed,
      Decimal.spanDigits_append]
  · rintro hf' hp'
    rw [(hpn hp').1]
    exact hfp hf'

/-- A number stops as well in front of what starts alike. -/
theorem Stops.congr {r' : List Char} (h : m.Stops r) (hr : r'.head? = r.head?)
    (hm : marksPower r' = marksPower r) : m.Stops r' := by
  have hstart (p : Char → Bool) : startsWith p r' = startsWith p r := by
    rw [startsWith, startsWith, hr]
  exact ⟨by rw [hstart, h.digit], fun hf hp => by rw [hstart, h.point hf hp],
    fun hp => by rw [hm, h.mark hp]⟩

/-- A number stops as well where something else follows the rest, but for an unfinished exponent. -/
theorem Stops.append {u : List Char} (h : m.Stops r) (hu : Apart u)
    (hE : r = ['E'] → startsWith (· == '-') u = false) : m.Stops (r ++ u) := by
  have hdigit : startsWith Char.isDigit u = false := hu.of_goesOn fun c hc => by
    simp only [goesOn, isWord_of_isDigit hc, Bool.true_or]
  rcases r with - | ⟨c, - | ⟨d, r⟩⟩
  · refine ⟨hdigit, fun _ _ => hu.of_goesOn fun c hc => ?_, fun _ => ?_⟩
    · rw [goesOn, hc, Bool.or_true]
    · have hletter : startsWith (· == 'E') u = false := hu.of_goesOn fun c hc => by
        rw [beq_iff_eq] at hc
        subst hc
        rfl
      rw [List.nil_append, marksPower, hletter, Bool.false_and]
  · refine ⟨h.digit, h.point, fun _ => ?_⟩
    by_cases hc : c = 'E'
    · subst hc
      have hminus := hE rfl
      cases u with
      | nil => rfl
      | cons d u =>
        simp only [startsWith_cons] at hdigit hminus
        simp only [List.singleton_append, marksPower, startsWith_cons, List.tail_cons, hdigit,
          hminus, Bool.or_false, Bool.and_false]
    · rw [List.singleton_append, marksPower, startsWith_cons, beq_eq_false_iff_ne.mpr hc,
        Bool.false_and]
  · exact h.congr rfl rfl

end Numeral

variable {c : Char} {v s s' r : List Char} {t : Token} {ts : List Token}

/-- If neither text starts with the property, both together do not. -/
theorem startsWith_append_eq_false {p : Char → Bool} (hs : startsWith p s = false)
    (hr : startsWith p r = false) : startsWith p (s ++ r) = false := by
  cases s with
  | nil => exact hr
  | cons c s => exact hs

/-- What is left behind a span does not start with its property. -/
theorem startsWith_dropWhile (p : Char → Bool) (s : List Char) :
    startsWith p (s.dropWhile p) = false := by
  induction s with
  | nil => rfl
  | cons c s ih =>
    by_cases hc : p c = true
    · rwa [List.dropWhile_cons_of_pos hc]
    · rw [List.dropWhile_cons_of_neg hc, startsWith_cons]
      simpa using hc

private theorem ofSingle_append (r : List Char)
    (h : (ofSingle c).map (fun t => (t, s)) = .ok (t, s')) :
    (ofSingle c).map (fun t => (t, s ++ r)) = .ok (t, s' ++ r) := by
  cases hc : ofSingle c with
  | error e =>
    rw [hc] at h
    cases h
  | ok t' =>
    rw [hc] at h
    cases h
    rfl

private theorem isMark_of_scanSign (h : scanSign c s = .ok (t, s')) : t.isMark = true := by
  have hsingle {u : List Char} (h : (ofSingle c).map (fun t => (t, u)) = .ok (t, s')) :
      t.isMark = true := by
    unfold ofSingle at h
    split at h
    · cases h
      exact isMark_of_ofChar ‹_›
    · cases h
  unfold scanSign at h
  split at h
  · split at h
    · cases h
      exact isMark_of_ofPair ‹_›
    · exact hsingle h
  · exact hsingle h

private theorem scanSign_append (h : scanSign c s = .ok (t, s')) (hu : Unstroked r) :
    scanSign c (s ++ r) = .ok (t, s' ++ r) := by
  unfold scanSign at h
  split at h
  · split at h
    · rename_i hpair
      cases h
      simp only [scanSign, List.cons_append, hpair]
    · rename_i hpair
      simpa only [scanSign, List.cons_append, hpair] using ofSingle_append r h
  · rename_i hne
    refine Eq.trans ?_ (ofSingle_append r h)
    unfold scanSign
    split
    · rename_i rest' heq
      cases s with
      | nil =>
        rw [List.nil_append] at heq
        rw [heq] at hu
        cases hu
      | cons d s =>
        rw [List.cons_append] at heq
        obtain ⟨rfl, rfl⟩ := List.cons.inj heq
        exact absurd rfl (hne s)
    · rfl

/-- A token is read as before where something is written behind the rest. -/
theorem scan_append (h : scan c s = .ok (t, s')) (hr : Apart r)
    (hu : t.isMark = true → Unstroked r)
    (hE : t.isNumber = true → s' = ['E'] → startsWith (· == '-') r = false) :
    scan c (s ++ r) = .ok (t, s' ++ r) := by
  unfold scan at h ⊢
  split at h
  · rename_i hc
    rw [if_pos hc]
    cases hm : Numeral.span (c :: s) with
    | mk m s'' =>
      rw [hm] at h
      obtain ⟨hs, hproper, hstops⟩ := Numeral.span_spec hm
      dsimp only at h
      cases htoken : m.token with
      | error e =>
        rw [htoken] at h
        cases h
      | ok t' =>
        rw [htoken] at h
        cases h
        have hstops' := hstops.append hr (hE (Numeral.isNumber_token htoken))
        rw [← List.cons_append, hs, List.append_assoc, Numeral.span_chars hproper hstops']
        dsimp only
        rw [htoken]
        rfl
  · rename_i hc
    rw [if_neg hc]
    split at h
    · rename_i hw
      rw [if_pos hw]
      cases h
      have hbehind : startsWith isWord (s.dropWhile isWord ++ r) = false :=
        startsWith_append_eq_false (startsWith_dropWhile isWord s) (hr.of_goesOn fun d hd => by
          simp only [goesOn, hd, Bool.true_or])
      have hword (d : Char) (hd : d ∈ s.takeWhile isWord) : isWord d = true :=
        List.all_eq_true.mp List.all_takeWhile d hd
      have hstop := span_stop hword hbehind
      rw [← List.append_assoc, List.takeWhile_append_dropWhile] at hstop
      rw [hstop.1, hstop.2]
    · rename_i hw
      rw [if_neg hw]
      exact scanSign_append h (hu (isMark_of_scanSign h))

/-- A text is read as before in front of what continues none of its tokens. -/
theorem scanAll_append (h : scanAll v = (ts, none)) (hr : Apart r)
    (hu : ∀ t ∈ ts, t.isMark = true → Unstroked r)
    (hE : startsWith (· == '-') r = true →
      ∀ before t, ts = before ++ [t, .name "E"] → t.isNumber = false) :
    scanAll (v ++ r) = (ts ++ (scanAll r).1, (scanAll r).2) := by
  fun_induction scanAll v generalizing ts with
  | case1 =>
    cases h
    rfl
  | case2 c rest hb ih =>
    rw [List.cons_append, scanAll_blank hb, ih h hu hE]
  | case3 c rest hb e he => cases h
  | case4 c rest hb t rest' hs ih =>
    simp only [Prod.mk.injEq] at h
    obtain ⟨rfl, hnone⟩ := h
    have hrest := ih (Prod.ext rfl hnone) (fun t' ht' => hu t' (List.mem_cons_of_mem t ht'))
      fun hminus before t' ht' => hE hminus (t :: before) t' (congrArg (t :: ·) ht')
    have hscan := scan_append hs hr (hu t List.mem_cons_self) fun ht hrest' => by
      refine Bool.eq_false_iff.mpr fun hminus => ?_
      have hname : (scanAll rest').1 = [.name "E"] := by
        have hE : scanAll ['E'] = ([.name "E"], none) := (lexes_name (s := "E") rfl).scanAll_eq rfl
        rw [hrest', hE]
      have hnumber := hE hminus [] t (by rw [hname]; rfl)
      rw [ht] at hnumber
      cases hnumber
    rw [List.cons_append, scanAll_cons (by simpa using hb) hscan, hrest]
    rfl

theorem isBlank_of_startsNumber (hc : (c.isDigit || c == '.') = true) :
    Text.isBlank c = false := by
  refine isBlank_of_goesOn ?_
  rw [Bool.or_eq_true] at hc
  rcases hc with hc | hc
  · rw [goesOn, isWord_of_isDigit hc, Bool.true_or]
  · rw [goesOn, hc, Bool.or_true]

/-- A number is read where it stops. -/
theorem scanAll_numeral {m : Numeral} {cs : List Char} (hm : m.Proper) (hr : m.Stops r)
    (ht : m.token = .ok t) (hcs : m.chars = c :: cs) (hc : (c.isDigit || c == '.') = true) :
    scanAll (m.chars ++ r) = (t :: (scanAll r).1, (scanAll r).2) := by
  have hspan : Numeral.span (c :: (cs ++ r)) = (m, r) := by
    rw [← List.cons_append, ← hcs]
    exact Numeral.span_chars hm hr
  rw [hcs, List.cons_append]
  refine scanAll_cons (isBlank_of_startsNumber hc) ?_
  rw [scan, if_pos hc, hspan]
  simp only [ht, Except.map]

/-- A digit or a point starts a number. -/
theorem token_of_scan {rest : List Char} (hc : (c.isDigit || c == '.') = true)
    (h : scan c rest = .ok (t, r)) : (Numeral.span (c :: rest)).1.token = .ok t := by
  rw [scan, if_pos hc] at h
  cases hn : (Numeral.span (c :: rest)).1.token with
  | error e =>
    simp only [hn] at h
    cases h
  | ok t' =>
    simp only [hn] at h
    cases h
    rfl

/-- A number with an exponent is a decimal. -/
theorem Numeral.exists_decimal {m : Numeral} (hp : m.power ≠ none) (h : m.token = .ok t) :
    ∃ x, t = .decimal x := by
  unfold Numeral.token at h
  dsimp only at h
  split at h
  · cases h
  · split at h
    · split at h
      · cases h
      · cases h
        exact ⟨_, rfl⟩
    · exact absurd ‹_› hp

/-- A number is written with the character that it starts with. -/
theorem Numeral.exists_chars {rest : List Char} {m : Numeral}
    (hc : (c.isDigit || c == '.') = true) (h : span (c :: rest) = (m, r)) :
    ∃ cs, m.chars = c :: cs ∧ rest = cs ++ r := by
  have hlength := span_length_lt rest hc
  obtain ⟨hs, -, -⟩ := span_spec h
  rw [h] at hlength
  cases hchars : m.chars with
  | nil =>
    rw [hchars, List.nil_append] at hs
    rw [← hs, List.length_cons] at hlength
    exact absurd hlength (Nat.not_succ_le_self _)
  | cons d cs =>
    rw [hchars, List.cons_append] at hs
    obtain ⟨rfl, rfl⟩ := List.cons.inj hs
    exact ⟨cs, rfl, rfl⟩

/-- The characters of a number. -/
def isNumeric (c : Char) : Bool := c.isDigit || c == '.' || c == 'E' || c == '-'

theorem isNumeric_of_isDigit (h : c.isDigit = true) : isNumeric c = true := by
  simp only [isNumeric, h, Bool.true_or]

theorem isNumeric_of_mem {m : Numeral} (hm : m.Proper) (hc : c ∈ m.chars) :
    isNumeric c = true := by
  obtain ⟨whole, fraction, power⟩ := m
  simp only [Numeral.chars, List.mem_append] at hc
  rcases hc with hc | hc | hc
  · exact isNumeric_of_isDigit (hm.whole c hc)
  · cases fraction with
    | none => cases hc
    | some ds =>
      rcases List.mem_cons.mp hc with rfl | hc
      · rfl
      · exact isNumeric_of_isDigit (hm.fraction ds rfl c hc)
  · rcases power with - | ⟨- | -, ds⟩
    · cases hc
    · rcases List.mem_cons.mp hc with rfl | hc
      · rfl
      · exact isNumeric_of_isDigit (hm.power _ rfl c hc)
    · rcases List.mem_cons.mp hc with rfl | hc
      · rfl
      · rcases List.mem_cons.mp hc with rfl | hc
        · rfl
        · exact isNumeric_of_isDigit (hm.power _ rfl c hc)

end Reckoner.Token
