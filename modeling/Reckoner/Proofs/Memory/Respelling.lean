import Reckoner.Proofs.Grammar.Rebracketing
import Reckoner.Proofs.Memory.Writing

/-!
# Texts with other words

Two texts are the same but for some of their words, where a word behind a number may be bracketed
in one of them. They have the same tokens but for those names and brackets, as long as the same
numbers are read off both: a word that is the letter of an exponent may not be another one.
-/

namespace Reckoner.Token

open Text Numeral

/-- A name of letters. -/
def isLetters (x : String) : Bool := isName x && x.toList.all Char.isAlpha

/-- Texts with other words, where the flag tells that a digit or a point stands before them. Words
behind a number are bracketed on one side only; if they are `steady`, none of them is the letter of
an exponent. -/
inductive Respelled (f : String → String) (spare : Nat) (steady : Prop) :
    Bool → List Char → List Char → Prop
  | nil {b} : Respelled f spare steady b [] []
  | other {b c r r'} : isWordStart c = false → Respelled f spare steady (continuesNumber c) r r' →
    Respelled f spare steady b (c :: r) (c :: r')
  | word {b c cs r r'} : isWordStart c = true → (∀ d ∈ cs, isWord d = true) →
    startsWith isWord r = false → Respelled f spare steady false r r' →
      Respelled f spare steady b (c :: (cs ++ r)) (c :: (cs ++ r'))
  | renamed {x y r r'} : isLetters x = true → isLetters y = true → f x = f y →
    startsWith isWord r = false → Respelled f spare steady false r r' →
      Respelled f spare steady false (x.toList ++ r) (y.toList ++ r')
  | added {x y r r'} : 0 < spare → isLetters x = true → isLetters y = true → f x = f y →
    (steady → x ≠ "E") → startsWith isWord r = false → opensArguments r = false →
      Respelled f spare steady false r r' →
        Respelled f spare steady true (x.toList ++ r) ('(' :: (y.toList ++ ')' :: r'))
  | removed {x y r r'} : isLetters x = true → isLetters y = true → f x = f y →
    (steady → y ≠ "E") → startsWith isWord r = false → opensArguments r = false →
      Respelled f spare steady false r r' →
        Respelled f spare steady true ('(' :: (x.toList ++ ')' :: r)) (y.toList ++ r')

/-! ## Words -/

variable {c : Char} {s r r' behind : List Char} {x y : String} {t : Token}

/-- A name of letters starts with a letter. -/
theorem exists_of_isLetters (h : isLetters x = true) :
    ∃ c cs, x.toList = c :: cs ∧ isWordStart c = true ∧ (∀ d ∈ cs, d.isAlpha = true) := by
  rw [isLetters, Bool.and_eq_true, List.all_eq_true] at h
  obtain ⟨hname, hletters⟩ := h
  unfold isName at hname
  split at hname
  · cases hname
  · rename_i c cs hx
    simp only [Bool.and_eq_true] at hname
    rw [hx] at hletters
    exact ⟨c, cs, hx, hname.1.1.1, fun d hd => hletters d (List.mem_cons_of_mem c hd)⟩

theorem isWord_of_isAlpha (h : c.isAlpha = true) : isWord c = true := by
  simp [isWord, Char.isAlphanum, h]

/-- Behind a name that no word continues the text is read on. -/
theorem scanAll_letters (h : isLetters x = true) (hr : startsWith isWord r = false) :
    scanAll (x.toList ++ r) = (.name x :: (scanAll r).1, (scanAll r).2) := by
  obtain ⟨c, cs, hx, hc, hcs⟩ := exists_of_isLetters h
  rw [isLetters, Bool.and_eq_true] at h
  have hname := h.1
  unfold isName at hname
  rw [hx] at hname
  simp only [Bool.and_eq_true, bne_iff_ne] at hname
  rw [hx, List.cons_append, scanAll_word hc (fun d hd => isWord_of_isAlpha (hcs d hd)) hr, ← hx,
    String.ofList_toList, ofWord, if_neg hname.1.2, if_neg hname.2]

/-- No numbers are read off a text whose first token cannot be cut off. -/
theorem numerals_error {e : ParseError} (h : scan c s = .error e) : numerals (c :: s) = [] := by
  rw [numerals]
  split
  · rfl
  · rename_i heq
    rw [h] at heq
    cases heq

/-- The numbers of a text are those behind its first token, and that if it is one. -/
theorem numerals_cons (h : scan c s = .ok (t, behind)) :
    numerals (c :: s) =
      if c.isDigit || c == '.' then Numeral.span (c :: s) :: numerals behind
      else numerals behind := by
  rw [numerals]
  split
  · rename_i heq
    rw [h] at heq
    cases heq
  · rename_i heq
    rw [h] at heq
    cases heq
    rfl

/-- A word is read up to where it ends. -/
theorem scan_word {cs : List Char} (hc : isWordStart c = true) (hcs : ∀ d ∈ cs, isWord d = true)
    (hr : startsWith isWord r = false) :
    scan c (cs ++ r) = .ok (ofWord (String.ofList (c :: cs)), r) := by
  have hstop := span_stop hcs hr
  rw [scan, if_neg (by simp [isWordStart_not_digit hc]), if_pos hc, hstop.1, hstop.2]

/-- In a word no numbers are read. -/
theorem numerals_word {cs : List Char} (hc : isWordStart c = true) (hcs : ∀ d ∈ cs, isWord d = true)
    (hr : startsWith isWord r = false) : numerals (c :: (cs ++ r)) = numerals r := by
  rw [numerals_cons (scan_word hc hcs hr), if_neg (by simp [isWordStart_not_digit hc])]

/-- In a name of letters no numbers are read. -/
theorem numerals_letters (h : isLetters x = true) (hr : startsWith isWord r = false) :
    numerals (x.toList ++ r) = numerals r := by
  obtain ⟨c, cs, hx, hc, hcs⟩ := exists_of_isLetters h
  rw [hx, List.cons_append]
  exact numerals_word hc (fun d hd => isWord_of_isAlpha (hcs d hd)) hr

/-- A bracket is no number. -/
theorem numerals_bracket (h : ofChar? c = some t) (hp : ofPair? c = none) :
    numerals (c :: r) = numerals r := by
  have hc : (c.isDigit || c == '.') = false ∧ isWordStart c = false := by
    unfold ofChar? at h
    split at h <;> first | decide | cases h
  have hscan : scan c r = .ok (t, r) := by
    rw [scan_eq_scanSign hc.1 hc.2, scanSign_single h (.inl hp)]
  rw [numerals_cons hscan, hc.1, if_neg Bool.false_ne_true]

/-- A name in brackets is read whatever stands behind it. -/
theorem scanAll_bracketed (h : isLetters x = true) :
    scanAll ('(' :: (x.toList ++ ')' :: r)) =
      (.opening .round :: .name x :: .closing .round :: (scanAll r).1, (scanAll r).2) := by
  rw [scanAll_sign (t := .opening .round) rfl (.inl rfl), scanAll_letters h rfl,
    scanAll_sign (t := .closing .round) rfl (.inl rfl)]

/-- In a name of letters in brackets no numbers are read. -/
theorem numerals_bracketed (h : isLetters x = true) :
    numerals ('(' :: (x.toList ++ ')' :: r)) = numerals r := by
  rw [numerals_bracket (t := .opening .round) rfl rfl, numerals_letters h rfl,
    numerals_bracket (t := .closing .round) rfl rfl]

theorem length_lt_letters (h : isLetters x = true) : r.length < (x.toList ++ r).length := by
  obtain ⟨c, cs, hx, -, -⟩ := exists_of_isLetters h
  rw [hx, List.length_append, List.length_cons]
  omega

namespace Respelled

variable {f : String → String} {spare : Nat} {steady : Prop} {b : Bool}

/-! ## The start of a text -/

/-- What neither starts a word nor is an opening bracket stands on both sides. -/
theorem cons_inv (h : Respelled f spare steady b (c :: r) s) (hc : isWordStart c = false)
    (hopen : c ≠ '(') : ∃ r', s = c :: r' ∧ Respelled f spare steady (continuesNumber c) r r' := by
  generalize hs : c :: r = u at h
  cases h with
  | nil => cases hs
  | other _ h =>
    obtain ⟨rfl, rfl⟩ := List.cons.inj hs
    exact ⟨_, rfl, h⟩
  | word hw =>
    obtain ⟨rfl, -⟩ := List.cons.inj hs
    rw [hw] at hc
    cases hc
  | renamed hx | added _ hx =>
    obtain ⟨d, ds, hd, hw, -⟩ := exists_of_isLetters hx
    rw [hd, List.cons_append] at hs
    obtain ⟨rfl, -⟩ := List.cons.inj hs
    rw [hw] at hc
    cases hc
  | removed =>
    obtain ⟨rfl, -⟩ := List.cons.inj hs
    exact absurd rfl hopen

/-- Where no word starts and nothing is bracketed, the texts start alike. -/
theorem head?_eq (h : Respelled f spare steady false r r')
    (hr : startsWith isWordStart r = false) : r'.head? = r.head? := by
  cases h with
  | nil | other | word => rfl
  | renamed hx =>
    obtain ⟨d, ds, hd, hw, -⟩ := exists_of_isLetters hx
    rw [hd, List.cons_append, startsWith_cons, hw] at hr
    cases hr

/-- Where no word starts, it does not matter what stands before. -/
theorem of_not_word (h : Respelled f spare steady false r r')
    (hr : startsWith isWordStart r = false) (b : Bool) : Respelled f spare steady b r r' := by
  cases h with
  | nil => exact .nil
  | other hc h => exact .other hc h
  | word hc => cases hr.symm.trans hc
  | renamed hx =>
    obtain ⟨d, ds, hd, hw, -⟩ := exists_of_isLetters hx
    rw [hd, List.cons_append, startsWith_cons, hw] at hr
    cases hr

theorem startsWith_isWordStart (h : startsWith isWord r = false) :
    startsWith isWordStart r = false := by
  cases r with
  | nil => rfl
  | cons c r =>
    rw [startsWith_cons] at h ⊢
    refine Bool.eq_false_iff.mpr fun hc => ?_
    rw [isWord_of_isWordStart hc] at h
    cases h

/-- Where no word goes on, none goes on in the other text. -/
theorem startsWith_isWord (h : Respelled f spare steady false r r')
    (hr : startsWith isWord r = false) : startsWith isWord r' = false := by
  rwa [startsWith, h.head?_eq (startsWith_isWordStart hr)]

/-- A word and an opening bracket aside, the texts start alike. -/
theorem startsWith_eq (h : Respelled f spare steady b r r') {p : Char → Bool}
    (hw : ∀ c, isWordStart c = true → p c = false) (hp : p '(' = false) :
    startsWith p r' = startsWith p r := by
  cases h with
  | nil | other | word => rfl
  | renamed hx hy =>
    obtain ⟨d, ds, hd, hd', -⟩ := exists_of_isLetters hx
    obtain ⟨e, es, he, he', -⟩ := exists_of_isLetters hy
    rw [hd, he, List.cons_append, List.cons_append, startsWith_cons, startsWith_cons, hw d hd',
      hw e he']
  | added _ hx =>
    obtain ⟨d, ds, hd, hd', -⟩ := exists_of_isLetters hx
    rw [hd, List.cons_append, startsWith_cons, startsWith_cons, hw d hd', hp]
  | removed _ hy =>
    obtain ⟨d, ds, hd, hd', -⟩ := exists_of_isLetters hy
    rw [hd, List.cons_append, startsWith_cons, startsWith_cons, hw d hd', hp]

/-! ## Numbers -/

/-- Digits and points stand on both sides. -/
theorem digits_inv {ds : List Char} (hne : ds ≠ []) (hd : ∀ c ∈ ds, continuesNumber c = true)
    (h : Respelled f spare steady b (ds ++ r) s) :
    ∃ r', s = ds ++ r' ∧ Respelled f spare steady true r r' := by
  induction ds generalizing b s with
  | nil => exact absurd rfl hne
  | cons c ds ih =>
    have hc := hd c List.mem_cons_self
    obtain ⟨s', rfl, hs⟩ := h.cons_inv (Filling.isWordStart_of_continuesNumber hc)
      (by rintro rfl; cases hc)
    by_cases hnil : ds = []
    · subst hnil
      rw [hc] at hs
      exact ⟨s', rfl, hs⟩
    · obtain ⟨r', rfl, hr⟩ := ih hnil (fun d hd' => hd d (List.mem_cons_of_mem c hd')) hs
      exact ⟨r', rfl, hr⟩

/-- A name of letters in front of what is no letter is the letter of an exponent. -/
theorem eq_of_exponent (hx : isLetters x = true) (hs : startsWith Char.isAlpha s = false)
    (h : x.toList ++ r = 'E' :: s) : x = "E" ∧ r = s := by
  obtain ⟨c, cs, hcs, -, hall⟩ := exists_of_isLetters hx
  rw [hcs, List.cons_append] at h
  obtain ⟨rfl, hrest⟩ := List.cons.inj h
  cases cs with
  | nil => exact ⟨String.toList_inj.mp hcs, hrest⟩
  | cons d ds =>
    rw [← hrest, List.cons_append, startsWith_cons, hall d List.mem_cons_self] at hs
    cases hs

/-- An exponent stands on both sides, if it is one there or no word is the letter of one. -/
theorem exponent_inv {z : List Char} (hz : startsWith Char.isAlpha z = false)
    (hmark : startsWith (fun c => c == '-' || c.isDigit) z = true)
    (h : Respelled f spare steady true ('E' :: z) s)
    (hs : steady ∨ startsWith (· == 'E') s = true) :
    ∃ cs r r', z = cs ++ r ∧ s = 'E' :: (cs ++ r') ∧ (∀ d ∈ cs, isWord d = true) ∧
      startsWith isWord r = false ∧ Respelled f spare steady false r r' := by
  generalize hu : 'E' :: z = u at h
  cases h with
  | nil => cases hu
  | other hc =>
    obtain ⟨rfl, -⟩ := List.cons.inj hu
    cases hc
  | @word _ c cs r r' hc hcs hr h =>
    obtain ⟨rfl, rfl⟩ := List.cons.inj hu
    exact ⟨cs, r, r', rfl, rfl, hcs, hr, h⟩
  | added _ hx _ _ hsteady =>
    obtain ⟨rfl, -⟩ := eq_of_exponent hx hz hu.symm
    rcases hs with hs | hs
    · exact absurd rfl (hsteady hs)
    · cases hs
  | removed => cases (List.cons.inj hu).1

/-- Behind the digits of a word the rest of it can be a word of its own. -/
theorem takeWhile_isWord_append (hr : startsWith Char.isDigit r = false)
    (hstart : startsWith isWord (r.dropWhile isWord) = false)
    (h : Respelled f spare steady false (r.dropWhile isWord) s) :
    Respelled f spare steady true r (r.takeWhile isWord ++ s) := by
  have hcut := List.takeWhile_append_dropWhile (p := isWord) (l := r)
  cases htake : r.takeWhile isWord with
  | nil =>
    rw [htake, List.nil_append] at hcut
    rw [hcut] at h hstart
    exact h.of_not_word (startsWith_isWordStart hstart) true
  | cons e es =>
    have hall : ∀ c ∈ e :: es, isWord c = true := htake ▸ List.all_eq_true.mp List.all_takeWhile
    rw [htake] at hcut
    have he : isWordStart e = true := by
      rw [← hcut, List.cons_append, startsWith_cons] at hr
      have hword := hall e List.mem_cons_self
      simpa [isWord, isWordStart, Char.isAlphanum, hr] using hword
    have hbehind := Respelled.word (b := true) he
      (fun c hc => hall c (List.mem_cons_of_mem e hc)) hstart h
    rwa [← List.cons_append, hcut] at hbehind

/-- Where an exponent stands on both sides, the texts go on behind it. -/
theorem marked_inv {m : Numeral} {p : Bool × List Char} (hm : m.Proper) (hp : m.power = some p)
    (hr : m.Stops r) (h : Respelled f spare steady true (m.marked ++ r) s)
    (hs : steady ∨ startsWith (· == 'E') s = true) :
    ∃ r', s = m.marked ++ r' ∧ m.Stops r' ∧ (p.2 ≠ [] → Respelled f spare steady true r r') := by
  have hstops {b : Bool} {r' : List Char} (h : Respelled f spare steady b r r') : m.Stops r' := by
    refine ⟨(h.startsWith_eq (fun c hc => ?_) rfl).trans hr.digit, fun _ hn => ?_, fun hn => ?_⟩
    · exact Bool.eq_false_iff.mpr fun hd => by rw [isWordStart_of_isDigit hd] at hc; cases hc
    all_goals
      rw [hp] at hn
      cases hn
  obtain ⟨negative, ds⟩ := p
  have hds : ∀ d ∈ ds, d.isDigit = true := hm.power _ hp
  cases negative with
  | true =>
    have hmarked : m.marked = 'E' :: '-' :: ds := by rw [Numeral.marked, hp]
    rw [hmarked] at h ⊢
    obtain ⟨cs, r₁, r₁', hz, rfl, hcs, -, h₁⟩ := exponent_inv rfl rfl h hs
    have hnil : cs = [] := by
      cases cs with
      | nil => rfl
      | cons d cs =>
        obtain ⟨rfl, -⟩ := List.cons.inj hz
        cases hcs '-' List.mem_cons_self
    subst hnil
    rw [List.nil_append] at hz
    subst hz
    obtain ⟨r₂, rfl, h₂⟩ := h₁.cons_inv rfl (by decide)
    by_cases hne : ds = []
    · subst hne
      exact ⟨r₂, rfl, hstops h₂, fun hn => absurd rfl hn⟩
    · obtain ⟨r', rfl, h₃⟩ := h₂.digits_inv hne
        fun d hd => by rw [continuesNumber, hds d hd, Bool.true_or]
      exact ⟨r', rfl, hstops h₃, fun _ => h₃⟩
  | false =>
    have hmarked : m.marked = 'E' :: ds := by rw [Numeral.marked, hp]
    obtain ⟨d, ds', rfl⟩ := List.exists_cons_of_ne_nil (hm.marked ds hp)
    have hdigit := hds d List.mem_cons_self
    have hword (c : Char) (hc : c ∈ d :: ds') : isWord c = true := isWord_of_isDigit (hds c hc)
    rw [hmarked] at h ⊢
    have halpha : d.isAlpha = false := by
      have hn := toNat_of_isDigit hdigit
      refine Bool.eq_false_iff.mpr fun ha => ?_
      have hn' := toNat_of_isAlpha ha
      omega
    obtain ⟨cs, r₁, r₁', hz, rfl, hcs, hstart, h₁⟩ := exponent_inv (z := d :: (ds' ++ r)) halpha
      (by rw [startsWith_cons, hdigit, Bool.or_true]) h hs
    -- the word of the exponent goes on with the letters behind the digits
    have hspan := span_stop hcs hstart
    rw [← hz, ← List.cons_append, List.takeWhile_append_of_pos hword,
      List.dropWhile_append_of_pos hword] at hspan
    obtain ⟨rfl, rfl⟩ := hspan
    have hbehind := takeWhile_isWord_append hr.digit hstart h₁
    refine ⟨r.takeWhile isWord ++ r₁', ?_, hstops hbehind, fun _ => hbehind⟩
    simp only [List.cons_append, List.append_assoc]

/-- If no word is the letter of an exponent, none is in its place. -/
theorem marksPower_eq_false (h : Respelled f spare steady true r r') (hs : steady)
    (hr : marksPower r = false) : marksPower r' = false := by
  cases h with
  | nil => rfl
  | @other _ c r r' hc _ =>
    have hE : (c == 'E') = false := by
      rw [beq_eq_false_iff_ne]
      rintro rfl
      cases hc
    rw [marksPower, startsWith_cons, hE, Bool.false_and]
  | @word _ c cs r r' hc hcs hstart h =>
    rw [← hr, marksPower, marksPower, List.tail_cons, List.tail_cons]
    cases cs with
    | nil =>
      have hhead := h.head?_eq (startsWith_isWordStart hstart)
      rw [List.nil_append, List.nil_append, startsWith, startsWith, startsWith, startsWith, hhead]
      rfl
    | cons d cs => rfl
  | added => rfl
  | @removed x y r r' _ hy _ hE =>
    obtain ⟨c, cs, hcs, -, hall⟩ := exists_of_isLetters hy
    rw [hcs, List.cons_append, marksPower, List.tail_cons, startsWith_cons]
    cases cs with
    | nil =>
      have hc : (c == 'E') = false := by
        rw [beq_eq_false_iff_ne]
        rintro rfl
        exact hE hs (String.toList_inj.mp hcs)
      rw [hc, Bool.false_and]
    | cons d ds =>
      have hn := toNat_of_isAlpha (hall d List.mem_cons_self)
      have hd : (d == '-' || d.isDigit) = false := by
        rw [Bool.or_eq_false_iff, beq_eq_false_iff_ne]
        refine ⟨?_, Bool.eq_false_iff.mpr fun hdigit => ?_⟩
        · rintro rfl
          revert hn
          decide
        · have hn' := toNat_of_isDigit hdigit
          omega
      rw [List.cons_append, startsWith_cons, hd, Bool.and_false]

/-- The same number is read off both texts, and they go on behind it. -/
theorem numeral_inv {u u' : List Char} {m : Numeral} (h : Respelled f spare steady b u u')
    (hspan : Numeral.span u = (m, s)) (hdigits : m.whole ++ m.pointed ≠ [])
    (hs : steady ∨ ∃ s', Numeral.span u' = (m, s')) :
    ∃ s', Numeral.span u' = (m, s') ∧
      ((∀ p ∈ m.power, p.2 ≠ []) → Respelled f spare steady true s s') := by
  obtain ⟨hu, hm, hstops⟩ := span_spec hspan
  rw [Numeral.chars, ← List.append_assoc, List.append_assoc _ m.marked] at hu
  rw [hu] at h
  obtain ⟨z, rfl, hz⟩ := h.digits_inv hdigits fun c hc => Filling.continuesNumber_of_mem hm hc
  have hshape {s' : List Char} (heq : z = m.marked ++ s') :
      m.whole ++ m.pointed ++ z = m.chars ++ s' := by
    rw [heq, Numeral.chars]
    simp only [List.append_assoc]
  cases hp : m.power with
  | none =>
    have hmarked : m.marked = [] := by rw [Numeral.marked, hp]
    rw [hmarked, List.nil_append] at hz
    have hz' : z = m.marked ++ z := by rw [hmarked, List.nil_append]
    rcases hs with hs | ⟨s', hs'⟩
    · have hstart {p : Char → Bool} (hw : ∀ c, isWordStart c = true → p c = false)
          (hopen : p '(' = false) : startsWith p z = startsWith p s := hz.startsWith_eq hw hopen
      have hstops' : m.Stops z := by
        refine ⟨(hstart (fun c hc => ?_) rfl).trans hstops.digit,
          fun hf hn => (hstart (fun c hc => ?_) rfl).trans (hstops.point hf hn),
          fun hn => hz.marksPower_eq_false hs (hstops.mark hn)⟩
        · exact Bool.eq_false_iff.mpr fun hd => by rw [isWordStart_of_isDigit hd] at hc; cases hc
        · rw [beq_eq_false_iff_ne]
          rintro rfl
          cases hc
      refine ⟨z, ?_, fun _ => hz⟩
      rw [hshape hz', Numeral.span_chars hm hstops']
    · obtain ⟨hu', -, -⟩ := span_spec hs'
      rw [hshape hz'] at hu'
      obtain rfl := List.append_cancel_left hu'
      exact ⟨z, hs', fun _ => hz⟩
  | some p =>
    have hE : steady ∨ startsWith (· == 'E') z = true := by
      rcases hs with hs | ⟨s', hs'⟩
      · exact .inl hs
      · obtain ⟨hu', -, -⟩ := span_spec hs'
        rw [Numeral.chars, ← List.append_assoc, List.append_assoc _ m.marked] at hu'
        obtain ⟨negative, ds⟩ := p
        rw [List.append_cancel_left hu', Numeral.marked, hp]
        cases negative <;> exact .inr rfl
    obtain ⟨s', hz', hstops', hbehind⟩ := hz.marked_inv hm hp hstops hE
    refine ⟨s', ?_, fun hne => hbehind (hne p rfl)⟩
    rw [hshape hz', Numeral.span_chars hm hstops']

end Respelled

/-! ## Tokens -/

variable {f : String → String} {spare : Nat} {steady : Prop} {b : Bool} {u u' : List Char}

/-- The same is read off both texts, but for names and the brackets around them. -/
structure ReadAlike (f : String → String) (spare : Nat) (b : Bool) (u u' : List Char) : Prop where
  /-- The tokens. -/
  tokens : Grammar.Rebracketed f spare b (scanAll u).1 (scanAll u').1
  /-- Both texts are read to the end, or neither is. -/
  fault : (scanAll u').2.isSome = (scanAll u).2.isSome
  /-- The numbers. -/
  numerals : (numerals u').map Prod.fst = (numerals u).map Prod.fst

namespace ReadAlike

theorem nil : ReadAlike f spare b [] [] :=
  ⟨by rw [scanAll_nil]; exact .nil, rfl, rfl⟩

/-- Neither text has a first token. -/
theorem error {e e' : ParseError} (hb : isBlank c = false) (h : scan c r = .error e)
    (h' : scan c r' = .error e') : ReadAlike f spare b (c :: r) (c :: r') := by
  refine ⟨?_, ?_, ?_⟩
  · rw [scanAll_error hb h, scanAll_error hb h']
    exact .nil
  · rw [scanAll_error hb h, scanAll_error hb h']
    rfl
  · rw [numerals_error h, numerals_error h']

/-- Both texts have the same first token, which is no name. -/
theorem cons (hb : isBlank c = false) (h : scan c r = .ok (t, s)) (h' : scan c r' = .ok (t, behind))
    (ht : t.isSymbol = false)
    (hm : (c.isDigit || c == '.') = true →
      (Numeral.span (c :: r')).1 = (Numeral.span (c :: r)).1)
    (hr : ReadAlike f spare t.isNumber s behind) : ReadAlike f spare b (c :: r) (c :: r') := by
  refine ⟨?_, ?_, ?_⟩
  · rw [scanAll_cons hb h, scanAll_cons hb h']
    exact .mark ht hr.tokens
  · rw [scanAll_cons hb h, scanAll_cons hb h']
    exact hr.fault
  · rw [numerals_cons h, numerals_cons h']
    split
    · rename_i hc
      rw [List.map_cons, List.map_cons, hm hc, hr.numerals]
    · exact hr.numerals

/-- Both texts are read on behind tokens that are no numbers. -/
theorem of_rest {before : Bool} {us us' : List Token} (hu : scanAll u = (us, (scanAll r).2))
    (hu' : scanAll u' = (us', (scanAll r').2)) (hn : Token.numerals u = Token.numerals r)
    (hn' : Token.numerals u' = Token.numerals r') (hr : ReadAlike f spare before r r')
    (h : Grammar.Rebracketed f spare b us us') : ReadAlike f spare b u u' where
  tokens := by rwa [hu, hu']
  fault := by rw [hu, hu', hr.fault]
  numerals := by rw [hn, hn', hr.numerals]

/-- Both texts have the same first word. -/
theorem word {cs : List Char} (hc : isWordStart c = true) (hcs : ∀ d ∈ cs, isWord d = true)
    (hr : startsWith isWord r = false) (hr' : startsWith isWord r' = false)
    (h : ReadAlike f spare false r r') :
    ReadAlike f spare b (c :: (cs ++ r)) (c :: (cs ++ r')) := by
  refine .of_rest (scanAll_word hc hcs hr) (scanAll_word hc hcs hr') (numerals_word hc hcs hr)
    (numerals_word hc hcs hr') h ?_
  unfold ofWord
  split
  · exact .mark rfl h.tokens
  · split
    · exact .mark rfl h.tokens
    · exact .name rfl h.tokens

end ReadAlike

/-- A number has digits or a point. -/
theorem digits_ne_nil {m : Numeral} (hc : (c.isDigit || c == '.') = true)
    (h : Numeral.span (c :: r) = (m, s)) : m.whole ++ m.pointed ≠ [] := by
  intro hnil
  obtain ⟨heq, -, -⟩ := span_spec h
  rw [Numeral.chars, ← List.append_assoc, hnil, List.nil_append, Numeral.marked] at heq
  obtain ⟨cs, hchars, -⟩ := Numeral.exists_chars hc h
  rw [Numeral.chars, ← List.append_assoc, hnil, List.nil_append, Numeral.marked] at hchars
  split at hchars <;> cases hchars <;> cases hc

/-- A digit or a point starts a number. -/
theorem scan_numeral {m : Numeral} (hc : (c.isDigit || c == '.') = true)
    (h : Numeral.span (c :: r) = (m, s)) : scan c r = m.token.map fun t => (t, s) := by
  rw [scan, if_pos hc, h]

/-- The numbers of a text that starts with one. -/
theorem numerals_numeral {m : Numeral} (hc : (c.isDigit || c == '.') = true)
    (h : Numeral.span (c :: r) = (m, s)) :
    numerals (c :: r) = if m.token.toBool then (m, s) :: numerals s else [] := by
  have hscan := scan_numeral hc h
  cases ht : m.token with
  | error e =>
    rw [ht] at hscan
    exact numerals_error hscan
  | ok t =>
    rw [ht] at hscan
    rw [numerals_cons hscan, if_pos hc, h]
    rfl

/-- Both texts start with the same number, or with none that can be read. -/
theorem Respelled.same_numeral {m m' : Numeral} (h : Respelled f spare steady b (c :: r) (c :: r'))
    (hc : (c.isDigit || c == '.') = true) (hm : Numeral.span (c :: r) = (m, s))
    (hm' : Numeral.span (c :: r') = (m', behind))
    (hs : steady ∨ (numerals (c :: r')).map Prod.fst = (numerals (c :: r)).map Prod.fst) :
    m' = m ∨ m.token.toBool = false ∧ m'.token.toBool = false := by
  rcases hs with hs | hs
  · obtain ⟨s', hs', -⟩ := h.numeral_inv hm (digits_ne_nil hc hm) (.inl hs)
    rw [hm'] at hs'
    exact .inl (Prod.mk.inj hs').1
  · rw [numerals_numeral hc hm, numerals_numeral hc hm'] at hs
    cases ht : m.token.toBool <;> cases ht' : m'.token.toBool <;> rw [ht, ht'] at hs
    · exact .inr ⟨rfl, rfl⟩
    · cases hs
    · cases hs
    · exact .inl (List.cons.inj hs).1

/-- What both texts read behind a digit or a point is the same number or none. -/
theorem Respelled.readAlike_numeral (h : Respelled f spare steady b (c :: r) (c :: r'))
    (hc : (c.isDigit || c == '.') = true)
    (hs : steady ∨ (numerals (c :: r')).map Prod.fst = (numerals (c :: r)).map Prod.fst)
    (ih : ∀ w s s', c :: r = w ++ s → s.length ≤ r.length → Respelled f spare steady true s s' →
      (steady ∨ (numerals s').map Prod.fst = (numerals s).map Prod.fst) →
        ReadAlike f spare true s s') : ReadAlike f spare b (c :: r) (c :: r') := by
  have hb := isBlank_of_startsNumber hc
  cases hm : Numeral.span (c :: r) with
  | mk m s =>
    cases hm' : Numeral.span (c :: r') with
    | mk m' s' =>
      have hscan := scan_numeral hc hm
      have hscan' := scan_numeral hc hm'
      rcases h.same_numeral hc hm hm' hs with rfl | ⟨ht, ht'⟩
      · cases ht : m'.token with
        | error e =>
          rw [ht] at hscan hscan'
          exact .error hb hscan hscan'
        | ok t =>
          rw [ht] at hscan hscan'
          obtain ⟨-, hpower⟩ := Filling.digits_of_token ht
          obtain ⟨s'', hs'', hbehind⟩ :=
            h.numeral_inv hm (digits_ne_nil hc hm) (.inr ⟨s', hm'⟩)
          rw [hm'] at hs''
          obtain ⟨-, rfl⟩ := Prod.mk.inj hs''
          have hnumber := isNumber_token ht
          refine .cons hb hscan hscan' ?_ (fun _ => by rw [hm, hm']) ?_
          · cases t <;> first | rfl | cases hnumber
          · have hlength := span_length_lt r hc
            rw [hm] at hlength
            rw [hnumber]
            refine ih _ s s' (span_spec hm).1 hlength (hbehind hpower) (hs.imp_right fun hs => ?_)
            rw [numerals_cons hscan, numerals_cons hscan', if_pos hc, if_pos hc] at hs
            exact (List.cons.inj hs).2
      · cases hm₁ : m.token with
        | ok t => rw [hm₁] at ht; cases ht
        | error e =>
          cases hm₂ : m'.token with
          | ok t => rw [hm₂] at ht'; cases ht'
          | error e' =>
            rw [hm₁] at hscan
            rw [hm₂] at hscan'
            exact .error hb hscan hscan'

theorem isSymbol_of_isMark (h : t.isMark = true) : t.isSymbol = false := by
  cases t <;> first | rfl | cases h

/-- A sign of one stroke in front of what is read alike, or no sign at all. -/
theorem ReadAlike.single (hc : (c.isDigit || c == '.') = false) (hb : isBlank c = false)
    (h : scan c r = (ofSingle c).map fun t => (t, r))
    (h' : scan c r' = (ofSingle c).map fun t => (t, r')) (hr : ReadAlike f spare false r r') :
    ReadAlike f spare b (c :: r) (c :: r') := by
  unfold ofSingle at h h'
  split at h
  · rename_i t ht
    rw [ht] at h'
    have hmark := isMark_of_ofChar ht
    refine .cons hb h h' (isSymbol_of_isMark hmark) (fun hd => ?_) ?_
    · rw [hc] at hd
      cases hd
    · rwa [isNumber_of_isMark hmark]
  · rename_i ht
    rw [ht] at h'
    exact .error hb h h'

/-- What both texts read at a sign is the same. -/
theorem Respelled.readAlike_sign (h : Respelled f spare steady false r r')
    (hc : (c.isDigit || c == '.') = false) (hw : isWordStart c = false) (hb : isBlank c = false)
    (hs : steady ∨ (numerals (c :: r')).map Prod.fst = (numerals (c :: r)).map Prod.fst)
    (ih : ∀ w s s', c :: r = w ++ s → s.length ≤ r.length → Respelled f spare steady false s s' →
      (steady ∨ (numerals s').map Prod.fst = (numerals s).map Prod.fst) →
        ReadAlike f spare false s s') : ReadAlike f spare b (c :: r) (c :: r') := by
  have hscan (r : List Char) : scan c r = scanSign c r := scan_eq_scanSign hc hw
  have hnumerals {t : Token} {r s : List Char} (h : scan c r = .ok (t, s)) :
      numerals (c :: r) = numerals s := by
    rw [numerals_cons h, hc, if_neg Bool.false_ne_true]
  have hsingle (hr : scanSign c r = (ofSingle c).map fun t => (t, r))
      (hr' : scanSign c r' = (ofSingle c).map fun t => (t, r')) :
      ReadAlike f spare b (c :: r) (c :: r') := by
    cases ht : ofSingle c with
    | error e =>
      rw [← hscan, ht] at hr hr'
      exact .error hb hr hr'
    | ok t =>
      refine .single hc hb ((hscan r).trans hr) ((hscan r').trans hr') ?_
      refine ih [c] r r' rfl (Nat.le_refl _) h (hs.imp_right fun hs => ?_)
      rw [← hscan, ht] at hr hr'
      rwa [hnumerals hr, hnumerals hr'] at hs
  -- a stroke follows in both texts or in none, so both signs have as many strokes
  have hstroke : startsWith (· == '=') r' = startsWith (· == '=') r :=
    h.startsWith_eq (fun c hc => by rw [beq_eq_false_iff_ne]; rintro rfl; cases hc) rfl
  by_cases hr : startsWith (· == '=') r = true
  · cases r with
    | nil => cases hr
    | cons d r =>
      rw [startsWith_cons, beq_iff_eq] at hr
      subst hr
      obtain ⟨s', rfl, hs'⟩ := h.cons_inv (by decide) (by decide)
      cases hp : ofPair? c with
      | none => exact hsingle (by simp only [scanSign, hp]) (by simp only [scanSign, hp])
      | some t =>
        have hmark := isMark_of_ofPair hp
        have hr : scan c ('=' :: r) = .ok (t, r) := by simp only [hscan, scanSign, hp]
        have hr' : scan c ('=' :: s') = .ok (t, s') := by simp only [hscan, scanSign, hp]
        refine .cons hb hr hr' (isSymbol_of_isMark hmark) (fun hd => ?_) ?_
        · rw [hc] at hd
          cases hd
        · rw [isNumber_of_isMark hmark]
          refine ih [c, '='] r s' rfl (Nat.le_succ _) hs' (hs.imp_right fun hs => ?_)
          rwa [hnumerals hr, hnumerals hr'] at hs
  · have hunstroked {s : List Char} (hs : startsWith (· == '=') s = false) :
        scanSign c s = (ofSingle c).map fun t => (t, s) := by
      cases s with
      | nil => rfl
      | cons d s =>
        rw [startsWith_cons, beq_eq_false_iff_ne] at hs
        unfold scanSign
        split
        · rename_i heq
          exact absurd (List.cons.inj heq).1 hs
        · rfl
    have hr : startsWith (· == '=') r = false := by simpa using hr
    exact hsingle (hunstroked hr) (hunstroked (hstroke.trans hr))

/-- The same is read off texts with other words, as long as no word is the letter of an exponent or
the numbers are the same. -/
theorem Respelled.readAlike (h : Respelled f spare steady b u u')
    (hb : ∀ c ∈ u, isBlank c = false)
    (hs : steady ∨ (numerals u').map Prod.fst = (numerals u).map Prod.fst) :
    ReadAlike f spare b u u' := by
  induction hl : u.length using Nat.strongRecOn generalizing b u u' with
  | ind n ih =>
    subst hl
    have hrest {b : Bool} {s s' : List Char} (w : List Char) (hu : u = w ++ s)
        (hlength : s.length < u.length) (h : Respelled f spare steady b s s')
        (hs : steady ∨ (numerals s').map Prod.fst = (numerals s).map Prod.fst) :
        ReadAlike f spare b s s' :=
      ih s.length hlength h (fun c hc => hb c (hu ▸ List.mem_append_right w hc)) hs rfl
    cases h with
    | nil => exact .nil
    | @other _ c r r' hc h =>
      by_cases hd : (c.isDigit || c == '.') = true
      · exact (Respelled.other hc h).readAlike_numeral hd hs fun w s s' hu hlength =>
          hrest w hu (Nat.lt_succ_of_le hlength)
      · have hd : continuesNumber c = false := by simpa [continuesNumber] using hd
        rw [hd] at h
        exact h.readAlike_sign hd hc (hb c List.mem_cons_self) hs fun w s s' hu hlength =>
          hrest w hu (Nat.lt_succ_of_le hlength)
    | @word _ c cs r r' hc hcs hstart h =>
      have hstart' := h.startsWith_isWord hstart
      have hlength : r.length < (c :: (cs ++ r)).length := by
        rw [List.length_cons, List.length_append]
        omega
      refine .word hc hcs hstart hstart' (hrest (c :: cs) rfl hlength h ?_)
      rwa [numerals_word hc hcs hstart, numerals_word hc hcs hstart'] at hs
    | @renamed x y r r' hx hy hf hstart h =>
      have hstart' := h.startsWith_isWord hstart
      rw [numerals_letters hx hstart, numerals_letters hy hstart'] at hs
      have hr := hrest x.toList rfl (length_lt_letters hx) h hs
      exact .of_rest (scanAll_letters hx hstart) (scanAll_letters hy hstart')
        (numerals_letters hx hstart) (numerals_letters hy hstart') hr (.name hf hr.tokens)
    | @added x y r r' hspare hx hy hf hE hstart hopen h =>
      rw [numerals_letters hx hstart, numerals_bracketed hy] at hs
      have hr := hrest x.toList rfl (length_lt_letters hx) h hs
      have hcall : Grammar.headIs opensCall (scanAll r).1 = false :=
        (opensArguments_eq_headIs fun c hc => hb c (List.mem_append_right _ hc)).symm.trans hopen
      exact .of_rest (scanAll_letters hx hstart) (scanAll_bracketed hy)
        (numerals_letters hx hstart) (numerals_bracketed hy) hr (.added hspare hf hcall hr.tokens)
    | @removed x y r r' hx hy hf hE hstart hopen h =>
      have hstart' := h.startsWith_isWord hstart
      rw [numerals_bracketed hx, numerals_letters hy hstart'] at hs
      have hlength : r.length < ('(' :: (x.toList ++ ')' :: r)).length := by
        rw [List.length_cons, List.length_append, List.length_cons]
        omega
      have hr := hrest ('(' :: (x.toList ++ [')'])) (by simp) hlength h hs
      have hcall : Grammar.headIs opensCall (scanAll r).1 = false :=
        (opensArguments_eq_headIs fun c hc => hb c (by simp [hc])).symm.trans hopen
      exact .of_rest (scanAll_bracketed hx) (scanAll_letters hy hstart')
        (numerals_bracketed hx) (numerals_letters hy hstart') hr (.removed hf hcall hr.tokens)

end Reckoner.Token
