import Reckoner.Proofs.Grammar.Completeness
import Reckoner.Proofs.Grammar.Numerals
import Reckoner.Proofs.Grammar.Rounding
import Reckoner.Proofs.Grammar.Spacing
import Reckoner.Proofs.Validation.Whitelist

/-!
# Texts without blanks

Blanks separate tokens, and validation removes them. A word then goes on with the letters behind
the blanks, and a number with an exponent. Where no token goes on, the text without blanks has the
same tokens, but for the shape of brackets, and so the same tree. The first token that goes on is
another leaf of the tree.
-/

namespace Reckoner

open Text Validation

namespace Token

/-- The token that starts with `c` goes on once the blanks behind it are removed. -/
def fuses (c : Char) (rest behind : List Char) : Bool :=
  if isWordStart c then startsWith isWord (dropBlanks behind)
  else if c.isDigit || c == '.' then
    (Numeral.span (c :: rest)).1.power.isNone && marksPower (dropBlanks behind)
  else false

/-- The first token of a text that goes on once blanks are removed. -/
def fusing? (s : List Char) : Option Token :=
  match s with
  | [] => none
  | c :: rest =>
    if isBlank c then fusing? rest
    else
      match _h : scan c rest with
      | .error _ => none
      | .ok (t, behind) => if fuses c rest behind then some t else fusing? behind
termination_by s.length
decreasing_by
  · exact Nat.lt_succ_self _
  · exact Nat.lt_succ_of_le (scan_length _h)

variable {c : Char} {s rest behind : List Char} {t : Token} {ts : List Token}

theorem fusing?_blank (h : isBlank c = true) : fusing? (c :: rest) = fusing? rest := by
  rw [fusing?.eq_def]
  exact if_pos h

/-- A token that goes on is the one, and otherwise the rest is searched. -/
theorem fusing?_cons (hb : isBlank c = false) (h : scan c rest = .ok (t, behind)) :
    fusing? (c :: rest) = if fuses c rest behind then some t else fusing? behind := by
  rw [fusing?.eq_def]
  dsimp only
  rw [if_neg (by simp [hb])]
  split
  · rename_i he
    rw [h] at he
    cases he
  · rename_i he
    rw [h] at he
    cases he
    rfl

/-! ## Visible characters -/

/-- No bracket has the property. -/
def Bracketless (p : Char → Bool) : Prop :=
  p '(' = false ∧ p ')' = false ∧ p '[' = false ∧ p ']' = false

instance (p : Char → Bool) : Decidable (Bracketless p) :=
  inferInstanceAs (Decidable (_ ∧ _ ∧ _ ∧ _))

/-- What has the property is no bracket, and stays as it is. -/
theorem roundBracket_eq_self {p : Char → Bool} (hp : Bracketless p) (hc : p c = true) :
    roundBracket c = c := by
  obtain ⟨-, -, hopen, hclose⟩ := hp
  unfold roundBracket
  split
  · rename_i h
    rw [h, hopen] at hc
    cases hc
  · split
    · rename_i h
      rw [h, hclose] at hc
      cases hc
    · rfl

/-- Brackets of both shapes lack the property. -/
theorem apply_roundBracket {p : Char → Bool} (hp : Bracketless p) (c : Char) :
    p (roundBracket c) = p c := by
  obtain ⟨hround, hround', hopen, hclose⟩ := hp
  unfold roundBracket
  split
  · rename_i h
    rw [h, hround, hopen]
  · split
    · rename_i h
      rw [h, hround', hclose]
    · rfl

theorem normalizeChars_blank (h : isBlank c = true) :
    normalizeChars (c :: rest) = normalizeChars rest := by
  rw [normalizeChars, dropBlanks, List.filter_cons_of_neg (by simp [h])]
  rfl

/-- Other characters stay, with round brackets. -/
theorem normalizeChars_visible (h : isBlank c = false) :
    normalizeChars (c :: rest) = roundBracket c :: normalizeChars rest := by
  rw [normalizeChars, dropBlanks, List.filter_cons_of_pos (by simp [h]), List.map_cons]
  rfl

theorem normalizeChars_append (s r : List Char) :
    normalizeChars (s ++ r) = normalizeChars s ++ normalizeChars r := by
  rw [normalizeChars, dropBlanks_append, List.map_append]
  rfl

/-- Visible characters that are no brackets stay. -/
theorem normalizeChars_eq_self {p : Char → Bool} (hp : Bracketless p)
    (hblank : ∀ c, p c = true → isBlank c = false) (hs : ∀ c ∈ s, p c = true) :
    normalizeChars s = s := by
  induction s with
  | nil => rfl
  | cons c s ih =>
    have hc := hs c List.mem_cons_self
    have hrest := ih fun d hd => hs d (List.mem_cons_of_mem c hd)
    rw [normalizeChars_visible (hblank c hc), roundBracket_eq_self hp hc, hrest]

/-- The first character behind the blanks decides. -/
theorem startsWith_normalizeChars {p : Char → Bool} (hp : Bracketless p) :
    startsWith p (normalizeChars s) = startsWith p (dropBlanks s) := by
  rw [normalizeChars]
  cases dropBlanks s with
  | nil => rfl
  | cons d ds => exact apply_roundBracket hp d

/-- An exponent starts behind the blanks if it does without them. -/
theorem marksPower_normalizeChars :
    marksPower (normalizeChars s) = marksPower (dropBlanks s) := by
  rw [normalizeChars]
  cases dropBlanks s with
  | nil => rfl
  | cons d ds =>
    have hmark := apply_roundBracket (p := (· == 'E')) ⟨rfl, rfl, rfl, rfl⟩ d
    have hbehind : startsWith (fun c => c == '-' || c.isDigit) (ds.map roundBracket) =
        startsWith (fun c => c == '-' || c.isDigit) ds := by
      cases ds with
      | nil => rfl
      | cons d' ds =>
        exact apply_roundBracket (p := fun c => c == '-' || c.isDigit) ⟨rfl, rfl, rfl, rfl⟩ d'
    rw [marksPower, marksPower, List.map_cons, startsWith_cons, startsWith_cons, List.tail_cons,
      List.tail_cons, hbehind]
    exact congrArg (· && _) hmark

/-- The first visible character starts the first token. -/
theorem exists_visible {d : Char} {ds : List Char} (h : dropBlanks s = d :: ds) :
    ∃ rest, isBlank d = false ∧ scanAll s = scanAll (d :: rest) ∧ dropBlanks rest = ds := by
  induction s with
  | nil => cases h
  | cons c s ih =>
    cases hc : isBlank c with
    | true =>
      rw [dropBlanks, List.filter_cons_of_neg (by simp [hc])] at h
      obtain ⟨rest, hd, hscan, hrest⟩ := ih h
      refine ⟨rest, hd, ?_, hrest⟩
      rw [scanAll_blank hc, hscan]
    | false =>
      rw [dropBlanks, List.filter_cons_of_pos (by simp [hc])] at h
      obtain ⟨rfl, hs⟩ := List.cons.inj h
      exact ⟨s, hc, rfl, hs⟩

/-! ## Tokens without blanks -/

/-- A visible digit or point starts a number. -/
theorem headIs_isLeaf (hts : scanAll s = (ts, none))
    (h : startsWith (fun c => c.isDigit || c == '.') (dropBlanks s) = true) :
    Grammar.headIs isLeaf ts = true := by
  cases hd : dropBlanks s with
  | nil =>
    rw [hd] at h
    cases h
  | cons d ds =>
    rw [hd, startsWith_cons] at h
    obtain ⟨rest, hb, hscan, -⟩ := exists_visible hd
    rw [hscan] at hts
    obtain ⟨t, rest', ts', hfirst, rfl, -⟩ := exists_scan hb hts
    exact isLeaf_of_isNumber (Numeral.isNumber_token (token_of_scan h hfirst))

/-- A visible equality stroke starts a relation. -/
theorem headIs_isRelation (hts : scanAll s = (ts, none))
    (h : startsWith (· == '=') (dropBlanks s) = true) :
    Grammar.headIs isRelation ts = true := by
  cases hd : dropBlanks s with
  | nil =>
    rw [hd] at h
    cases h
  | cons d ds =>
    rw [hd, startsWith_cons, beq_iff_eq] at h
    subst h
    obtain ⟨rest, hb, hscan, -⟩ := exists_visible hd
    rw [hscan] at hts
    obtain ⟨t, rest', ts', hfirst, rfl, -⟩ := exists_scan hb hts
    cases scanned_of_scan hfirst with
    | number hc => cases hc
    | word hw => cases hw
    | single _ hs => cases hs
    | pair _ _ hs =>
      cases hs
      rfl

theorem bracketless_isNumeric : Bracketless isNumeric := by decide

theorem bracketless_isWord : Bracketless isWord := by decide

theorem isBlank_of_isNumeric (h : isNumeric c = true) : isBlank c = false := by
  simp only [isNumeric, Bool.or_eq_true, beq_iff_eq] at h
  rcases h with ((h | rfl) | rfl) | rfl
  · refine isBlank_of_goesOn ?_
    rw [goesOn, isWord_of_isDigit h, Bool.true_or]
  · decide
  · decide
  · decide

/-- A number is written the same way without blanks. -/
theorem normalizeChars_numeral {m : Numeral} (hm : m.Proper) (r : List Char) :
    normalizeChars (m.chars ++ r) = m.chars ++ normalizeChars r := by
  rw [normalizeChars_append, normalizeChars_eq_self bracketless_isNumeric
    (fun _ => isBlank_of_isNumeric) fun _ => isNumeric_of_mem hm]

/-- A word is written the same way without blanks. -/
theorem normalizeChars_word (hc : isWordStart c = true) (rest : List Char) :
    normalizeChars (c :: rest) =
      c :: (rest.takeWhile isWord ++ normalizeChars (rest.dropWhile isWord)) := by
  have hword : ∀ d ∈ c :: rest.takeWhile isWord, isWord d = true := by
    intro d hd
    rcases List.mem_cons.mp hd with rfl | hd
    · exact isWord_of_isWordStart hc
    · exact List.all_eq_true.mp List.all_takeWhile d hd
  have hself : normalizeChars (c :: rest.takeWhile isWord) = c :: rest.takeWhile isWord := by
    refine normalizeChars_eq_self bracketless_isWord (fun d hd => ?_) hword
    exact isBlank_of_goesOn (by rw [goesOn, hd, Bool.true_or])
  have hsplit : c :: rest = (c :: rest.takeWhile isWord) ++ rest.dropWhile isWord := by
    rw [List.cons_append, List.takeWhile_append_dropWhile]
  rw [hsplit, normalizeChars_append, hself]
  rfl

/-- A number stops as well where blanks are removed, unless it fuses. -/
theorem Numeral.Stops.normalizeChars {m : Numeral} (hts : scanAll behind = (ts, none))
    (hleaf : Grammar.headIs isLeaf ts = false)
    (hpower : m.power = none → marksPower (dropBlanks behind) = false) :
    m.Stops (normalizeChars behind) := by
  have hnumeric {p : Char → Bool} (hp : Bracketless p)
      (hpn : ∀ c, p c = true → (c.isDigit || c == '.') = true) :
      startsWith p (Validation.normalizeChars behind) = false := by
    rw [startsWith_normalizeChars hp]
    refine Bool.eq_false_iff.mpr fun h => ?_
    have hstart : startsWith (fun c => c.isDigit || c == '.') (dropBlanks behind) = true := by
      cases hd : dropBlanks behind with
      | nil =>
        rw [hd] at h
        cases h
      | cons d ds =>
        rw [hd] at h
        exact hpn d h
    rw [headIs_isLeaf hts hstart] at hleaf
    cases hleaf
  refine ⟨hnumeric (by decide) fun c hc => ?_, fun _ _ => hnumeric (by decide) fun c hc => ?_,
    fun hp => ?_⟩
  · rw [hc, Bool.true_or]
  · rw [hc, Bool.or_true]
  · rw [marksPower_normalizeChars]
    exact hpower hp

/-- A sign is written in one stroke as well where blanks are removed. -/
theorem unstroked_normalizeChars (hts : scanAll behind = (ts, none))
    (hrelation : Grammar.headIs isRelation ts = false) : Unstroked (normalizeChars behind) := by
  rw [Unstroked, startsWith_normalizeChars (by decide)]
  refine Bool.eq_false_iff.mpr fun h => ?_
  rw [headIs_isRelation hts h] at hrelation
  cases hrelation

theorem rounded_of_isNumber (h : t.isNumber = true) : t.rounded = t := by
  cases t with
  | opening | closing => cases h
  | _ => rfl

theorem rounded_ofWord (word : String) : (ofWord word).rounded = ofWord word := by
  unfold ofWord
  split
  · rfl
  · split <;> rfl

/-- A sign of one stroke in round brackets' shape; only a relation can have a second stroke. -/
theorem ofChar_roundBracket (h : ofChar? c = some t) :
    ofChar? (roundBracket c) = some t.rounded ∧ ofPair? (roundBracket c) = ofPair? c ∧
      (ofPair? c = none ∨ t.isRelation = true) := by
  unfold ofChar? at h
  split at h <;> cases h <;> first
    | exact ⟨rfl, rfl, .inl rfl⟩
    | exact ⟨rfl, rfl, .inr rfl⟩

/-- Where it does not go on, the first token is read without blanks as it is with them. -/
theorem scanAll_normalizeChars_cons (hb : isBlank c = false) (h : scan c rest = .ok (t, behind))
    (hts : scanAll behind = (ts, none)) (hspaced : Spaced (t :: ts)) (hparted : Parted (t :: ts))
    (hf : fuses c rest behind = false) : scanAll (normalizeChars (c :: rest)) =
      (t.rounded :: (scanAll (normalizeChars behind)).1,
        (scanAll (normalizeChars behind)).2) := by
  have hkept := @normalizeChars_visible c rest hb
  cases scanned_of_scan h with
  | number hc hn =>
    have hnumber := Numeral.isNumber_token hn
    have hword : isWordStart c = false := by
      refine Bool.eq_false_iff.mpr fun hw => ?_
      rw [isWordStart_not_digit hw] at hc
      cases hc
    cases hm : Numeral.span (c :: rest) with
    | mk m behind =>
      simp only [fuses, hword, hc, hm, Bool.false_eq_true, if_false, if_true] at hf hn hts ⊢
      obtain ⟨hs, hproper, -⟩ := Numeral.span_spec hm
      obtain ⟨cs, hchars, -⟩ := Numeral.exists_chars hc hm
      have hleaf : Grammar.headIs isLeaf ts = false := by
        cases ts with
        | nil => rfl
        | cons u ts => exact hspaced.1 (by cases t <;> first | rfl | cases hnumber)
      have hstops : m.Stops (normalizeChars behind) := by
        refine .normalizeChars hts hleaf fun hp => ?_
        rwa [hp, Option.isNone_none, Bool.true_and] at hf
      rw [hs, normalizeChars_numeral hproper, rounded_of_isNumber hnumber]
      exact scanAll_numeral hproper hstops hn hchars hc
  | word hc =>
    have hgoesOn : startsWith isWord (normalizeChars (rest.dropWhile isWord)) = false := by
      rw [fuses, if_pos hc] at hf
      rw [startsWith_normalizeChars bracketless_isWord, hf]
    have hword (d : Char) (hd : d ∈ rest.takeWhile isWord) : isWord d = true :=
      List.all_eq_true.mp List.all_takeWhile d hd
    rw [normalizeChars_word hc, rounded_ofWord]
    exact scanAll_word hc hword hgoesOn
  | single _ ht =>
    obtain ⟨hchar, hpair, hrelation⟩ := ofChar_roundBracket ht
    have hstroke' : ofPair? (roundBracket c) = none ∨ Unstroked (normalizeChars rest) := by
      rw [hpair]
      refine hrelation.imp_right fun hrelation => unstroked_normalizeChars hts ?_
      cases ts with
      | nil => rfl
      | cons u ts => exact hparted.1 hrelation
    rw [hkept]
    exact scanAll_sign hchar hstroke'
  | pair _ hr ht =>
    subst hr
    have hpair : roundBracket c = c ∧ t.rounded = t := by
      unfold ofPair? at ht
      split at ht <;> cases ht <;> exact ⟨by decide, rfl⟩
    have hstroke : normalizeChars ('=' :: behind) = '=' :: normalizeChars behind := rfl
    rw [hkept, hpair.1, hpair.2, hstroke]
    exact scanAll_pair ht

/-- A text in which no token goes on has the same tokens without blanks. -/
theorem scanAll_normalizeChars (h : scanAll s = (ts, none)) (hspaced : Spaced ts)
    (hparted : Parted ts) (hf : fusing? s = none) :
    scanAll (normalizeChars s) = (ts.map rounded, none) := by
  fun_induction scanAll s generalizing ts with
  | case1 =>
    cases h
    have hnil : normalizeChars [] = [] := rfl
    rw [hnil, scanAll_nil, List.map_nil]
  | case2 c rest hb ih =>
    rw [fusing?_blank hb] at hf
    rw [normalizeChars_blank hb]
    exact ih h hspaced hparted hf
  | case3 => cases h
  | case4 c rest hb t behind hs ih =>
    have hb : isBlank c = false := by simpa using hb
    obtain ⟨rfl, hnone⟩ := Prod.mk.inj h
    have hbehind : scanAll behind = ((scanAll behind).1, none) := Prod.ext rfl hnone
    rw [fusing?_cons hb hs] at hf
    split at hf
    · cases hf
    · rename_i hfuses
      rw [scanAll_normalizeChars_cons hb hs hbehind hspaced hparted (by simpa using hfuses),
        ih hbehind hspaced.tail hparted.tail hf]
      rfl

/-! ## Leaves -/

/-- A number, a truth value or a name. -/
def isTip (t : Token) : Bool := t.isLeaf || t.isSymbol

theorem isTip_rounded (t : Token) : t.rounded.isTip = t.isTip := by
  cases t <;> rfl

theorem rounded_of_isTip (h : t.isTip = true) : t.rounded = t := by
  cases t with
  | opening | closing => cases h
  | _ => rfl

theorem isTip_ofWord (word : String) : (ofWord word).isTip = true := by
  unfold ofWord
  split
  · rfl
  · split <;> rfl

/-- Different words are different tokens. -/
theorem ofWord_injective {v w : String} (h : ofWord v = ofWord w) : v = w := by
  unfold ofWord at h
  split at h
  · rename_i hv
    split at h
    · rename_i hw
      rw [hv, hw]
    · split at h <;> cases h
  · split at h
    · rename_i hv
      split at h
      · cases h
      · split at h
        · rename_i hw
          rw [hv, hw]
        · cases h
    · split at h
      · cases h
      · split at h <;> cases h
        rfl

/-- A word that goes on is a longer word. -/
theorem exists_longer_word (hc : isWordStart c = true)
    (hf : startsWith isWord (dropBlanks (rest.dropWhile isWord)) = true) :
    ∃ word us e, scanAll (normalizeChars (c :: rest)) = (ofWord word :: us, e) ∧
      word ≠ String.ofList (c :: rest.takeWhile isWord) := by
  let r := normalizeChars (rest.dropWhile isWord)
  have hr : startsWith isWord r = true := (startsWith_normalizeChars bracketless_isWord).trans hf
  have hsplit : normalizeChars (c :: rest) =
      c :: ((rest.takeWhile isWord ++ r.takeWhile isWord) ++ r.dropWhile isWord) := by
    rw [normalizeChars_word hc, List.append_assoc, List.takeWhile_append_dropWhile]
  have hword (d : Char) (hd : d ∈ rest.takeWhile isWord ++ r.takeWhile isWord) :
      isWord d = true := by
    rw [List.mem_append] at hd
    rcases hd with hd | hd
    · exact List.all_eq_true.mp List.all_takeWhile d hd
    · exact List.all_eq_true.mp List.all_takeWhile d hd
  rw [hsplit, scanAll_word hc hword (startsWith_dropWhile isWord r)]
  refine ⟨_, _, _, rfl, fun heq => ?_⟩
  have hchars := (List.cons.inj (String.ofList_injective heq)).2
  have hnil : r.takeWhile isWord = [] := List.append_right_eq_self.mp hchars
  cases hd : r with
  | nil =>
    rw [hd] at hr
    cases hr
  | cons d ds =>
    rw [hd, startsWith_cons] at hr
    rw [hd, List.takeWhile_cons_of_pos hr] at hnil
    cases hnil

/-- A number that goes on is a number with an exponent. -/
theorem exists_exponent {m : Numeral} {us : List Token}
    (hc : (c.isDigit || c == '.') = true) (hm : Numeral.span (c :: rest) = (m, behind))
    (hpower : m.power = none) (hf : marksPower (dropBlanks behind) = true)
    (hus : scanAll (normalizeChars (c :: rest)) = (us, none)) :
    ∃ x us', us = .decimal x :: us' := by
  obtain ⟨hs, hproper, -⟩ := Numeral.span_spec hm
  obtain ⟨cs, hchars, -⟩ := Numeral.exists_chars hc hm
  have hmark : marksPower (normalizeChars behind) = true := marksPower_normalizeChars.trans hf
  have hdigit : startsWith Char.isDigit (normalizeChars behind) = false := by
    rw [marksPower, Bool.and_eq_true] at hmark
    cases hd : normalizeChars behind with
    | nil => rfl
    | cons d ds =>
      rw [hd, startsWith_cons, beq_iff_eq] at hmark
      rw [hmark.1]
      rfl
  obtain ⟨p, r, -, hr, hdigits, hsome, hstop, hnone⟩ :=
    Numeral.spanPower_spec (normalizeChars behind) hdigit
  have hp : p ≠ none := by
    rintro rfl
    obtain ⟨hsame, hfalse⟩ := hnone rfl
    rw [← hsame, hfalse] at hmark
    cases hmark
  let m' : Numeral := { m with power := p }
  have hproper' : m'.Proper := ⟨hproper.whole, hproper.fraction, hdigits, hsome⟩
  have hstops' : m'.Stops r := ⟨hstop, fun _ h => absurd h hp, fun h => absurd h hp⟩
  have hchars' : m'.chars = c :: (cs ++ m'.marked) := by
    have hmarked : m.marked = [] := by rw [Numeral.marked, hpower]
    rw [Numeral.chars, hmarked, List.append_nil] at hchars
    rw [Numeral.chars, ← List.append_assoc]
    exact congrArg (· ++ m'.marked) hchars
  have hwhole : normalizeChars (c :: rest) = m'.chars ++ r := by
    have hmarked : normalizeChars behind = m'.marked ++ r := hr
    rw [hs, normalizeChars_numeral hproper, hmarked, hchars, hchars', ← List.append_assoc]
    rfl
  have hspan := Numeral.span_chars hproper' hstops'
  rw [hwhole, hchars', List.cons_append] at hus
  rw [hchars', List.cons_append] at hspan
  obtain ⟨u, rest', us', hscan, rfl, -⟩ := exists_scan (isBlank_of_startsNumber hc) hus
  have htoken := token_of_scan hc hscan
  rw [hspan] at htoken
  obtain ⟨x, rfl⟩ := Numeral.exists_decimal hp htoken
  exact ⟨x, us', rfl⟩

/-- A token that goes on, unless it is a decimal, is another leaf without the blanks. -/
theorem exists_head_of_fuses {us : List Token} (hb : isBlank c = false)
    (h : scan c rest = .ok (t, behind)) (ht : ∀ x, t ≠ .decimal x)
    (hf : fuses c rest behind = true) (hus : scanAll (normalizeChars (c :: rest)) = (us, none)) :
    t.isTip = true ∧ ∃ u us', us = u :: us' ∧ u.isTip = true ∧ u ≠ t := by
  cases scanned_of_scan h with
  | number hc hn =>
    have hword : isWordStart c = false := by
      refine Bool.eq_false_iff.mpr fun hw => ?_
      rw [isWordStart_not_digit hw] at hc
      cases hc
    rw [fuses, if_neg (by simp [hword]), if_pos hc, Bool.and_eq_true, Option.isNone_iff_eq_none]
      at hf
    obtain ⟨x, us', rfl⟩ := exists_exponent hc rfl hf.1 hf.2 hus
    have hnumber := isLeaf_of_isNumber (Numeral.isNumber_token hn)
    exact ⟨by rw [isTip, hnumber, Bool.true_or], .decimal x, us', rfl, rfl, (ht x).symm⟩
  | word hc =>
    rw [fuses, if_pos hc] at hf
    obtain ⟨word, us', e, hscan, hne⟩ := exists_longer_word hc hf
    rw [hscan] at hus
    cases hus
    exact ⟨isTip_ofWord _, _, us', rfl, isTip_ofWord _, fun heq => hne (ofWord_injective heq)⟩
  | single hc hs =>
    have hdigit : (c.isDigit || c == '.') = false := by
      unfold ofChar? at hs
      split at hs <;> cases hs <;> rfl
    rw [fuses, if_neg (by simp [hc]), if_neg (by simp [hdigit])] at hf
    cases hf
  | pair hc hr hs =>
    have hdigit : (c.isDigit || c == '.') = false := by
      unfold ofPair? at hs
      split at hs <;> cases hs <;> rfl
    rw [fuses, if_neg (by simp [hc]), if_neg (by simp [hdigit])] at hf
    cases hf

/-- A text in which a token goes on, unless that is a decimal, has other leaves without blanks. -/
theorem tips_ne_of_fusing {us : List Token} (h : scanAll s = (ts, none)) (hspaced : Spaced ts)
    (hparted : Parted ts) (hf : fusing? s = some t) (ht : ∀ x, t ≠ .decimal x)
    (hus : scanAll (normalizeChars s) = (us, none)) : us.filter isTip ≠ ts.filter isTip := by
  fun_induction scanAll s generalizing ts us with
  | case1 =>
    rw [fusing?.eq_def] at hf
    cases hf
  | case2 c rest hb ih =>
    rw [fusing?_blank hb] at hf
    rw [normalizeChars_blank hb] at hus
    exact ih h hspaced hparted hf hus
  | case3 => cases h
  | case4 c rest hb t' behind hs ih =>
    have hb : isBlank c = false := by simpa using hb
    obtain ⟨rfl, hnone⟩ := Prod.mk.inj h
    have hbehind : scanAll behind = ((scanAll behind).1, none) := Prod.ext rfl hnone
    rw [fusing?_cons hb hs] at hf
    split at hf
    · rename_i hfuses
      cases hf
      obtain ⟨htip, u, us', rfl, hu, hne⟩ := exists_head_of_fuses hb hs ht hfuses hus
      rw [List.filter_cons_of_pos hu, List.filter_cons_of_pos htip]
      exact fun heq => hne (List.cons.inj heq).1
    · rename_i hfuses
      rw [scanAll_normalizeChars_cons hb hs hbehind hspaced hparted (by simpa using hfuses)] at hus
      obtain ⟨rfl, hnone'⟩ := Prod.mk.inj hus
      have hne := ih hbehind hspaced.tail hparted.tail hf (Prod.ext rfl hnone')
      cases htip : t'.isTip with
      | true =>
        rw [rounded_of_isTip htip, List.filter_cons_of_pos htip, List.filter_cons_of_pos htip]
        exact fun heq => hne (List.cons.inj heq).2
      | false =>
        rw [List.filter_cons_of_neg (by simp [isTip_rounded, htip]),
          List.filter_cons_of_neg (by simp [htip])]
        exact hne

end Token

namespace Expr

mutual

/-- The numbers, truth values and names of a tree in order, the names of calls among them. -/
def tips : Expr → List Token
  | exact q => [.integer q.num]
  | real x => [.decimal x]
  | symbol name => [.name name]
  | boolean b => [.boolean b]
  | neg a => tips a
  | binary _ a b | compare _ a b => tips a ++ tips b
  | call name as => .name name :: tipsAll as
  | list as => tipsAll as

/-- The numbers, truth values and names of all trees. -/
def tipsAll : List Expr → List Token
  | [] => []
  | a :: as => tips a ++ tipsAll as

end

theorem tipsAll_append (as bs : List Expr) : tipsAll (as ++ bs) = tipsAll as ++ tipsAll bs := by
  induction as with
  | nil => simp only [List.nil_append, tipsAll]
  | cons a as ih => simp only [List.cons_append, tipsAll, ih, List.append_assoc]

end Expr

namespace Grammar

open Token

/-- The tips of what a chain continues. -/
def Phrase.tipsBefore : Phrase → List Token
  | sides a _ | summands a _ | factors a _ => a.tips
  | moreArguments sofar _ => Expr.tipsAll sofar
  | _ => []

/-- The tips of what is read. -/
def Phrase.tips : Phrase → List Token
  | expression e | sides _ e | sum e | summands _ e | product e | factors _ e | unary e | power e
  | application e | primary e => e.tips
  | arguments _ es | moreArguments _ es => Expr.tipsAll es

/-- What is read has the tips that stand among its tokens. -/
theorem Derives.tips {φ : Phrase} {ts us : List Token} (h : Derives φ ts us) :
    φ.tipsBefore ++ ts.filter isTip = φ.tips ++ us.filter isTip := by
  have hchain {as bs es xs ys zs : List Token} (hb : xs = bs ++ ys)
      (he : (as ++ bs) ++ ys = es ++ zs) : as ++ xs = es ++ zs := by
    rw [hb, ← List.append_assoc, he]
  induction h with
  | expression _ _ iha ihc | sum _ _ iha ihc | product _ _ iha ihc => exact iha.trans ihc
  | lastSide | lastSummand | lastFactor | lastArgument | noArguments => rfl
  | nextSide _ _ ihb ihc | nextSummand _ _ _ ihb ihc | nextFactor _ _ _ ihb ihc
  | besideName _ _ ihb ihc | besideGroup _ _ ihb ihc => exact hchain ihb ihc
  | minus _ ih | plus _ ih | unsigned _ _ ih | base _ _ ih | plain _ _ ih => exact ih
  | raised _ _ iha ihb | call _ _ _ iha ihb => exact iha.trans (hchain ihb rfl)
  | integer | decimal | boolean | name => rfl
  | group _ ih | braces _ ih => exact ih
  | @arguments b e es ts us vs _ _ _ ihe ihs =>
    have hone : Expr.tipsAll [e] = e.tips := by
      rw [Expr.tipsAll, Expr.tipsAll, List.append_nil]
    exact ihe.trans ((congrArg (· ++ us.filter isTip) hone.symm).trans ihs)
  | @nextArgument sofar es e ts us vs _ _ ihe ihs =>
    have hmore : Expr.tipsAll (sofar ++ [e]) = Expr.tipsAll sofar ++ e.tips := by
      rw [Expr.tipsAll_append, Expr.tipsAll, Expr.tipsAll, List.append_nil]
    exact hchain ihe ((congrArg (· ++ us.filter isTip) hmore.symm).trans ihs)

end Grammar

namespace Validation

open Token

/-- Where no token goes on, an accepted text is read as it was before its blanks were removed; where
one does, and the first that does is no decimal, it is read as another tree. -/
theorem parse_of_validate {s : Service Builtin.State} {t n : String} {e : Expr}
    (h : ((Service.validate Engine.builtin t).run.run s).1 = .ok n)
    (he : Grammar.parse t = .ok e) :
    (fusing? t.toList = none → Grammar.parse n = .ok e) ∧
      ∀ token, fusing? t.toList = some token → (∀ x, token ≠ .decimal x) →
        Grammar.parse n ≠ .ok e := by
  obtain ⟨-, rfl, -, -, e', he'⟩ := validate_iff.mp h
  obtain ⟨ts, hts, hd, -⟩ := Grammar.derives_of_parse he
  obtain ⟨us, hus, hd', -⟩ := Grammar.derives_of_parse he'
  have hspaced : Spaced ts := (hd.spaced trivial rfl).1
  have hparted : Parted ts := hd.parted trivial
  rw [normalize, String.toList_ofList] at hus
  constructor
  · intro hf
    have hround : Grammar.Derives (.expression e) (ts.map rounded) [] := (hd.rounded fun _ => rfl).1
    have hscan := scanAll_normalizeChars hts hspaced hparted hf
    have heq := Grammar.eq_of_derives he' (by rw [normalize, String.toList_ofList, hscan]) hround
    rw [he', heq]
  · intro token hf htoken heq
    rw [he'] at heq
    cases heq
    refine tips_ne_of_fusing hts hspaced hparted hf htoken hus ?_
    have htips := hd.tips
    have htips' := hd'.tips
    rw [List.filter_nil, List.append_nil] at htips htips'
    exact htips'.trans htips.symm

/-- Blanks around brackets and signs do no harm; in front of an exponent they do. -/
theorem parse_of_validate_exponent :
    (∃ e, Grammar.parse "sin[ x ] + 2 y" = .ok e ∧ Grammar.parse "sin(x)+2y" = .ok e) ∧
      ∃ e, Grammar.parse "2 E-5" = .ok e ∧ Grammar.parse "2E-5" ≠ .ok e := by
  obtain ⟨e, he⟩ := exists_of_isOk (x := Grammar.parse "sin[ x ] + 2 y") (by decide +kernel)
  obtain ⟨e', he'⟩ := exists_of_isOk (x := Grammar.parse "2 E-5") (by decide +kernel)
  have haccepts := accepts (t := "sin[ x ] + 2 y") (n := "sin(x)+2y") (by decide +kernel)
    (by decide +kernel) (by decide +kernel) (by decide +kernel)
  have haccepts' := accepts (t := "2 E-5") (n := "2E-5") (by decide +kernel) (by decide +kernel)
    (by decide +kernel) (by decide +kernel)
  have hnone : fusing? "sin[ x ] + 2 y".toList = none := by
    refine Option.isNone_iff_eq_none.mp ?_
    decide +kernel
  have hscan : scan '2' " E-5".toList = .ok (.integer 2, " E-5".toList) := by rfl
  have hfuses : fuses '2' " E-5".toList " E-5".toList = true := by decide +kernel
  have hsome : fusing? "2 E-5".toList = some (.integer 2) :=
    (fusing?_cons (by decide) hscan).trans (if_pos hfuses)
  refine ⟨⟨e, he, (parse_of_validate haccepts he).1 hnone⟩, e', he', ?_⟩
  exact (parse_of_validate haccepts' he').2 _ hsome nofun

/-- The checks miss that two names become the name of a function. -/
theorem validate_misses_fused_names :
    ¬ ∀ (s : Service Builtin.State) (t n : String) (e : Expr),
      ((Service.validate Engine.builtin t).run.run s).1 = .ok n →
        Grammar.parse t = .ok e → Grammar.parse n = .ok e := by
  intro hall
  obtain ⟨e, he⟩ := exists_of_isOk (x := Grammar.parse "a sin(x)") (by decide +kernel)
  have hparse := hall idleService "a sin(x)" "asin(x)" e (accepts (by decide +kernel)
    (by decide +kernel) (by decide +kernel) (by decide +kernel)) he
  have hcalls : (Grammar.parse "a sin(x)").toOption.map Expr.calls = some ["sin"] := by
    decide +kernel
  have hcalls' : (Grammar.parse "asin(x)").toOption.map Expr.calls = some ["asin"] := by
    decide +kernel
  rw [he] at hcalls
  rw [hparse, hcalls] at hcalls'
  revert hcalls'
  decide

end Validation

end Reckoner
