import Reckoner.Memory
import Reckoner.Proofs.Grammar.Numerals
import Reckoner.Proofs.Memory.Splice
import Reckoner.Proofs.Validation.Words

/-!
# Texts in the place of a name

The text with a value in the place of a name is read as the tokens with the tokens of the value
in the place of the name. Words and names differ within numbers only: the exponent mark of a
number is a word, and so is an exponent with the name behind it. A text without such numbers
has the same places for the name as its tokens.
-/

namespace Reckoner

/-- No word starts where one ends. -/
theorem Text.startsWith_dropWhile_isWord (s : List Char) :
    Token.startsWith Token.isWordStart (s.dropWhile Token.isWord) = false := by
  have hword := Token.startsWith_dropWhile Token.isWord s
  cases hs : s.dropWhile Token.isWord with
  | nil => rfl
  | cons c rest =>
    rw [hs, Token.startsWith_cons] at hword
    refine Bool.eq_false_iff.mpr fun hc => ?_
    rw [Token.isWord_of_isWordStart hc] at hword
    cases hword

namespace Token

/-- The numbers of a text, each with what stands behind it. -/
def numerals (s : List Char) : List (Numeral × List Char) :=
  match s with
  | [] => []
  | c :: rest =>
    match _h : scan c rest with
    | .error _ => []
    | .ok (_, rest') =>
      if c.isDigit || c == '.' then Numeral.span (c :: rest) :: numerals rest' else numerals rest'
termination_by s.length
decreasing_by all_goals exact Nat.lt_succ_of_le (scan_length _h)

/-- The exponent mark of the number is the letter, or a name behind its exponent is. -/
def hides (letter : Char) (number : Numeral × List Char) : Bool :=
  match number.1.power with
  | none => false
  | some (true, _) => letter == 'E'
  | some (false, _) =>
    number.2.takeWhile isWord == [letter] && !Text.opensArguments (number.2.dropWhile isWord)

/-- No number hides the letter. -/
def Shown (letter : Char) (s : List Char) : Prop := ∀ m ∈ numerals s, hides letter m = false

variable {letter c : Char} {rest rest' : List Char} {t : Token}

/-- Behind a token the letter is shown as well. -/
theorem Shown.of_scan (h : Shown letter (c :: rest)) (hs : scan c rest = .ok (t, rest')) :
    Shown letter rest' := by
  intro m hm
  refine h m ?_
  rw [numerals]
  split
  · rename_i he
    rw [hs] at he
    cases he
  · rename_i he
    rw [hs] at he
    cases he
    split
    · exact List.mem_cons_of_mem _ hm
    · exact hm

/-- The number in front does not hide the letter. -/
theorem Shown.span (h : Shown letter (c :: rest)) (hc : (c.isDigit || c == '.') = true)
    (hs : scan c rest = .ok (t, rest')) : hides letter (Numeral.span (c :: rest)) = false := by
  refine h _ ?_
  rw [numerals]
  split
  · rename_i he
    rw [hs] at he
    cases he
  · rw [if_pos hc]
    exact List.mem_cons_self

end Token

namespace Filling

open Text

variable (x : Filling) (v : List Char)

/-- What is written in the place of a word, if the word is the name and is not called. -/
def written? (w : Identifier) : Option (List Char) :=
  if !w.isCall && w.text == x.name then
    some (if x.isAtomic && !w.followsNumber then v else '(' :: v ++ [')'])
  else none

/-- Write the value in the place of the name throughout. -/
def fillPieces (f : Bool) (n : Nat) (s : List Char) : List Char :=
  (pieces f n s).flatMap fun piece => match piece with
    | .word w => (x.written? v w).getD w.name
    | .other c => [c]

variable {x v} {f : Bool} {n : Nat} {c : Char} {s r rest : List Char}

theorem fillPieces_nil : x.fillPieces v f n [] = [] :=
  replaceFrom_nil f n (x.written? v)

/-- A word is written as it is or replaced, and the rest follows. -/
theorem fillPieces_word (h : Token.isWordStart c = true) :
    x.fillPieces v f n (c :: rest) =
      (x.written? v ⟨c :: rest.takeWhile Token.isWord, n,
        opensArguments (rest.dropWhile Token.isWord), f⟩).getD (c :: rest.takeWhile Token.isWord) ++
      x.fillPieces v false (n + byteCount (c :: rest.takeWhile Token.isWord))
        (rest.dropWhile Token.isWord) :=
  replaceFrom_word f n (x.written? v) h

/-- Another character is written as it is, and the rest follows. -/
theorem fillPieces_other (h : Token.isWordStart c = false) :
    x.fillPieces v f n (c :: rest) =
      c :: x.fillPieces v (continuesNumber c) (n + c.utf8Size) rest :=
  replaceFrom_other f n (x.written? v) h

/-- Where no word starts, the first character stays. -/
theorem head?_fillPieces (h : Token.startsWith Token.isWordStart s = false) :
    (x.fillPieces v f n s).head? = s.head? := by
  cases s with
  | nil => rw [fillPieces_nil]
  | cons c s =>
    rw [fillPieces_other h]
    rfl

/-- What a number goes on with starts no word. -/
theorem isWordStart_of_continuesNumber (h : continuesNumber c = true) :
    Token.isWordStart c = false := by
  refine Bool.eq_false_iff.mpr fun hw => ?_
  rw [continuesNumber, Token.isWordStart_not_digit hw] at h
  cases h

/-- Digits and points stay. -/
theorem fillPieces_digits {ds : List Char} (hne : ds ≠ [])
    (hd : ∀ c ∈ ds, continuesNumber c = true) (f : Bool) (n : Nat) :
    ∃ n', x.fillPieces v f n (ds ++ r) = ds ++ x.fillPieces v true n' r := by
  induction ds generalizing f n with
  | nil => exact absurd rfl hne
  | cons c ds ih =>
    have hc := hd c List.mem_cons_self
    rw [List.cons_append, fillPieces_other (isWordStart_of_continuesNumber hc), hc]
    by_cases hnil : ds = []
    · subst hnil
      exact ⟨_, rfl⟩
    · obtain ⟨n', heq⟩ := ih hnil (fun d hd' => hd d (List.mem_cons_of_mem c hd')) true
        (n + c.utf8Size)
      exact ⟨n', by rw [heq, List.cons_append]⟩

/-! ## Numbers -/

theorem written?_of_ne {w : Identifier} (h : w.text ≠ x.name) : x.written? v w = none := by
  rw [written?, beq_eq_false_iff_ne.mpr h, Bool.and_false]
  rfl

variable {letter : Char} {m : Token.Numeral} {t : Token}

/-- A number that is read has digits, also in its exponent. -/
theorem digits_of_token (h : m.token = .ok t) :
    m.whole ++ m.pointed ≠ [] ∧ ∀ p ∈ m.power, p.2 ≠ [] := by
  unfold Token.Numeral.token at h
  dsimp only at h
  split at h
  · cases h
  · rename_i hdigits
    constructor
    · intro hnil
      rw [List.append_eq_nil_iff] at hnil
      refine hdigits ?_
      have hfraction : m.fraction = none := by
        cases hf : m.fraction with
        | none => rfl
        | some ds =>
          rw [Token.Numeral.pointed, hf] at hnil
          cases hnil.2
      rw [hnil.1, hfraction]
      rfl
    · rintro p hp hnil
      rw [hp] at h
      dsimp only at h
      rw [hnil] at h
      cases h

/-- The digits and the point of a number go on a number. -/
theorem continuesNumber_of_mem (hm : m.Proper) {c : Char}
    (hc : c ∈ m.whole ++ m.pointed) : continuesNumber c = true := by
  rw [continuesNumber, Bool.or_eq_true]
  rw [List.mem_append] at hc
  rcases hc with hc | hc
  · exact .inl (hm.whole c hc)
  · unfold Token.Numeral.pointed at hc
    split at hc
    · rename_i ds hds
      rcases List.mem_cons.mp hc with rfl | hc
      · exact .inr rfl
      · exact .inl (hm.fraction ds hds c hc)
    · cases hc

private theorem text_ne (hx : x.name = String.singleton letter) {w : Identifier}
    (h : w.name ≠ [letter]) : w.text ≠ x.name := by
  rw [hx]
  intro heq
  have hlist := congrArg String.toList heq
  rw [Identifier.text, String.toList_ofList, String.toList_singleton] at hlist
  exact h hlist

/-- Where no word starts it does not matter whether a number stands before. -/
theorem fillPieces_of_ne_word (h : Token.startsWith Token.isWordStart s = false) (f f' : Bool)
    (n : Nat) : x.fillPieces v f n s = x.fillPieces v f' n s := by
  cases s with
  | nil => rw [fillPieces_nil, fillPieces_nil]
  | cons c rest => rw [fillPieces_other h, fillPieces_other h]

/-- The rest of a word is left as it is where it is not the name. -/
theorem fillPieces_takeWhile (hr : Token.startsWith Char.isDigit r = false)
    (hname : ∀ n, x.written? v
      ⟨r.takeWhile Token.isWord, n, opensArguments (r.dropWhile Token.isWord), true⟩ = none)
    (n : Nat) :
    r.takeWhile Token.isWord ++ x.fillPieces v false (n + byteCount (r.takeWhile Token.isWord))
      (r.dropWhile Token.isWord) = x.fillPieces v true n r := by
  cases r with
  | nil => rw [List.takeWhile_nil, List.dropWhile_nil, fillPieces_nil, fillPieces_nil]; rfl
  | cons c rest =>
    rw [Token.startsWith_cons] at hr
    by_cases hc : Token.isWordStart c = true
    · have hword := Token.isWord_of_isWordStart hc
      have hnone := hname n
      rw [List.takeWhile_cons_of_pos hword, List.dropWhile_cons_of_pos hword] at hnone ⊢
      rw [fillPieces_word hc, hnone, Option.getD_none]
    · have hother : ¬ Token.isWord c = true := by
        simp only [Token.isWordStart, Bool.or_eq_true, not_or] at hc
        simp [Token.isWord, Char.isAlphanum, hr, hc]
      rw [List.takeWhile_cons_of_neg hother, List.dropWhile_cons_of_neg hother]
      exact fillPieces_of_ne_word (by simpa using hc) false true n

/-- A number stays, and what is behind it is written behind it. -/
theorem fillPieces_numeral (hx : x.name = String.singleton letter) (hm : m.Proper)
    (hr : m.Stops r) (htoken : m.token = .ok t) (hh : Token.hides letter (m, r) = false)
    (f : Bool) (n : Nat) :
    ∃ n', x.fillPieces v f n (m.chars ++ r) = m.chars ++ x.fillPieces v true n' r := by
  obtain ⟨hdigits, hpower⟩ := digits_of_token htoken
  obtain ⟨n₁, hfirst⟩ := fillPieces_digits (x := x) (v := v) (r := m.marked ++ r) hdigits
    (fun c hc => continuesNumber_of_mem hm hc) f n
  rw [Token.Numeral.chars, ← List.append_assoc, List.append_assoc _ m.marked, hfirst]
  cases hp : m.power with
  | none =>
    have hmarked : m.marked = [] := by rw [Token.Numeral.marked, hp]
    refine ⟨n₁, ?_⟩
    rw [hmarked, List.nil_append, List.append_nil]
  | some p =>
    obtain ⟨negative, ds⟩ := p
    have hds : ∀ d ∈ ds, d.isDigit = true := hm.power _ hp
    cases negative with
    | true =>
      -- the mark is a word of one letter, so it must not be the one that is replaced
      have hmarked : m.marked = 'E' :: '-' :: ds := by rw [Token.Numeral.marked, hp]
      have hE : letter ≠ 'E' := by
        rw [Token.hides, hp] at hh
        exact beq_eq_false_iff_ne.mp hh
      obtain ⟨n₂, hlast⟩ := fillPieces_digits (x := x) (v := v) (r := r) (hpower _ hp)
        (fun c hc => by rw [continuesNumber, hds c hc, Bool.true_or]) (continuesNumber '-')
        (n₁ + byteCount ['E'] + '-'.utf8Size)
      refine ⟨n₂, ?_⟩
      have hword : x.fillPieces v true n₁ ('E' :: '-' :: (ds ++ r)) =
          'E' :: x.fillPieces v false (n₁ + byteCount ['E']) ('-' :: (ds ++ r)) := by
        rw [fillPieces_word (by decide), List.takeWhile_cons_of_neg (by decide),
          List.dropWhile_cons_of_neg (by decide),
          written?_of_ne (text_ne hx (by simpa using hE.symm))]
        rfl
      rw [hmarked, List.cons_append, List.cons_append, hword, fillPieces_other (by decide), hlast]
      simp only [List.append_assoc, List.cons_append]
    | false =>
      -- the mark, the digits and the letters behind them are cut as one word
      have hmarked : m.marked = 'E' :: ds := by rw [Token.Numeral.marked, hp]
      have hword (c : Char) (hc : c ∈ ds) : Token.isWord c = true :=
        Token.isWord_of_isDigit (hds c hc)
      have hname : 'E' :: (ds ++ r.takeWhile Token.isWord) ≠ [letter] := by
        intro heq
        obtain ⟨-, hnil⟩ := List.cons.inj heq
        exact hpower _ hp (List.append_eq_nil_iff.mp hnil).1
      have hbehind (k : Nat) : x.written? v ⟨r.takeWhile Token.isWord, k,
          opensArguments (r.dropWhile Token.isWord), true⟩ = none := by
        rw [Token.hides, hp] at hh
        dsimp only at hh
        cases hcall : opensArguments (r.dropWhile Token.isWord) with
        | true => rfl
        | false =>
          rw [hcall, Bool.not_false, Bool.and_true, beq_eq_false_iff_ne] at hh
          exact written?_of_ne (text_ne hx hh)
      have hlength : byteCount ('E' :: (ds ++ r.takeWhile Token.isWord)) =
          byteCount ('E' :: ds) + byteCount (r.takeWhile Token.isWord) :=
        byteCount_append ('E' :: ds) _
      refine ⟨n₁ + byteCount ('E' :: ds), ?_⟩
      rw [hmarked, List.cons_append, fillPieces_word (by decide),
        List.takeWhile_append_of_pos hword, List.dropWhile_append_of_pos hword,
        written?_of_ne (text_ne hx hname), ← fillPieces_takeWhile hr.digit hbehind, hlength,
        Nat.add_assoc]
      simp only [Option.getD_none, List.append_assoc, List.cons_append]

/-! ## Seams -/

variable (x v letter) in
/-- The name is a letter, and the value is the text of what is written in its place. -/
structure Written : Prop where
  /-- The name. -/
  name : x.name = String.singleton letter
  /-- The value has its tokens. -/
  tokens : Token.scanAll v = (x.tokens, none)
  /-- The value has no equality stroke. -/
  noStroke : '=' ∉ v
  /-- The tokens are read as the value. -/
  sound : x.Sound

variable {ts : List Token} {σ : Seam}

/-- A value has characters. -/
theorem Written.ne_nil (hx : Written x v letter) : v ≠ [] := by
  rintro rfl
  have ht := hx.tokens
  rw [Token.scanAll_nil] at ht
  have hlt := hx.sound.derives.length_lt rfl
  rw [← (Prod.mk.inj ht).1] at hlt
  exact Nat.lt_irrefl 0 hlt

/-- A text has a first character with a property only if the first text has. -/
private theorem startsWith_append_of_ne_nil {p : Char → Bool} {s r : List Char} (h : s ≠ []) :
    Token.startsWith p (s ++ r) = Token.startsWith p s := by
  cases s with
  | nil => exact absurd rfl h
  | cons c s => rfl

/-- No sign of one stroke becomes one of two strokes. -/
theorem Written.unstroked (hx : Written x v letter) (h : Token.Unstroked s) (f : Bool) (n : Nat) :
    Token.Unstroked (x.fillPieces v f n s) := by
  have hvalue : Token.Unstroked v := by
    cases hv : v with
    | nil => rfl
    | cons c cs =>
      rw [Token.Unstroked, Token.startsWith_cons, beq_eq_false_iff_ne]
      rintro rfl
      exact hx.noStroke (hv ▸ List.mem_cons_self)
  cases s with
  | nil =>
    rw [fillPieces_nil]
    exact h
  | cons c rest =>
    by_cases hc : Token.isWordStart c = true
    · rw [fillPieces_word hc, Token.Unstroked]
      unfold written?
      split
      · split
        · rwa [Option.getD_some, startsWith_append_of_ne_nil hx.ne_nil]
        · rfl
      · exact h
    · rw [fillPieces_other (by simpa using hc)]
      exact h

/-- A number stops where it stopped. -/
theorem stops_fillPieces (h : m.Stops r) (n : Nat) : m.Stops (x.fillPieces v true n r) := by
  cases r with
  | nil =>
    rw [fillPieces_nil]
    exact h
  | cons c rest =>
    by_cases hc : Token.isWordStart c = true
    · rw [fillPieces_word hc]
      unfold written?
      split
      · rw [Bool.not_true, Bool.and_false, if_neg Bool.false_ne_true, Option.getD_some]
        exact ⟨rfl, fun _ _ => rfl, fun _ => rfl⟩
      · rw [Option.getD_none]
        refine h.congr rfl ?_
        have hsecond {p : Char → Bool} {n' : Nat} :
            Token.startsWith p (rest.takeWhile Token.isWord ++
              x.fillPieces v false n' (rest.dropWhile Token.isWord)) = Token.startsWith p rest := by
          conv_rhs => rw [← List.takeWhile_append_dropWhile (p := Token.isWord) (l := rest)]
          cases rest.takeWhile Token.isWord with
          | nil =>
            rw [List.nil_append, List.nil_append, Token.startsWith,
              head?_fillPieces (startsWith_dropWhile_isWord rest)]
            rfl
          | cons d cs => rfl
        rw [Token.marksPower, Token.marksPower, List.cons_append, List.tail_cons, List.tail_cons,
          hsecond]
        rfl
    · have hc : Token.isWordStart c = false := by simpa using hc
      have hE : (c == 'E') = false := by
        rw [beq_eq_false_iff_ne]
        rintro rfl
        cases hc
      rw [fillPieces_other hc]
      refine h.congr rfl ?_
      simp only [Token.marksPower, Token.startsWith_cons, hE, Bool.false_and]

/-- A word is replaced as the token that it is. -/
theorem Written.replaces_ofWord (hx : Written x v letter) (word : String) :
    x.replaces (Token.ofWord word) ts =
      (word == x.name && !Grammar.headIs Token.opensCall ts) := by
  have hne {s : String} (hs : s.toList.length ≠ 1) : (s == x.name) = false := by
    rw [beq_eq_false_iff_ne, hx.name]
    rintro rfl
    rw [String.toList_singleton] at hs
    exact hs rfl
  unfold Token.ofWord
  split
  · rename_i h
    rw [h, hne (by decide)]
    rfl
  · split
    · rename_i h
      rw [h, hne (by decide)]
      rfl
    · rfl

/-- No number goes on behind the end of an operand. -/
theorem apart_of_spaced (hb : ∀ c ∈ s, isBlank c = false) (hs : Token.scanAll s = (ts, none))
    (hword : Token.startsWith Token.isWord s = false) (hspaced : Token.Spaced (t :: ts))
    (ht : t.endsOperand = true) : Token.Apart s := by
  cases s with
  | nil => rfl
  | cons c rest =>
    rw [Token.startsWith_cons] at hword
    rw [Token.Apart, Token.startsWith_cons, Token.goesOn, hword, Bool.false_or,
      beq_eq_false_iff_ne]
    rintro rfl
    obtain ⟨u, rest', us, hscan, rfl, -⟩ := Token.exists_scan (by decide) hs
    have hleaf := hspaced.1 ht
    cases Token.scanned_of_scan hscan with
    | number hc hn =>
      rw [Token.isLeaf_of_isNumber (Token.Numeral.isNumber_token hn)] at hleaf
      cases hleaf
    | word hw => cases hw
    | single _ hc => cases hc
    | pair _ _ hc => cases hc

/-- A minus sign is read where one stands. -/
theorem headIs_subtract (hs : Token.scanAll s = (ts, none))
    (h : Token.startsWith (· == '-') s = true) :
    Grammar.headIs (Token.isSign (.operation .subtract)) ts = true := by
  cases s with
  | nil => cases h
  | cons c rest =>
    rw [Token.startsWith_cons, beq_iff_eq] at h
    subst h
    rw [Token.scanAll_sign (t := .operation .subtract) rfl (.inl rfl)] at hs
    obtain ⟨rfl, -⟩ := Prod.mk.inj hs
    rfl

/-- An atomic value where it fits is read as it is without brackets. -/
theorem Written.scanAll_bare (hx : Written x v letter) (ha : x.isAtomic = true)
    {behind us : List Char} (hb : ∀ c ∈ behind, isBlank c = false)
    (hs : Token.scanAll behind = (ts, none))
    (hword : Token.startsWith Token.isWord behind = false) (hus : us.head? = behind.head?)
    (hspaced : Token.Spaced (t :: ts)) (ht : t.endsOperand = true)
    (hfit : x.fitsBare σ ts = true) :
    Token.scanAll (v ++ us) = (x.tokens ++ (Token.scanAll us).1, (Token.scanAll us).2) := by
  have hstart (p : Char → Bool) : Token.startsWith p us = Token.startsWith p behind := by
    rw [Token.startsWith, Token.startsWith, hus]
  refine Token.scanAll_append hx.tokens ?_ ?_ ?_
  · rw [Token.Apart, hstart]
    exact apart_of_spaced hb hs hword hspaced ht
  · intro u hu hmark
    have hatom := hx.sound.atom ha
    generalize x.tokens = tokens at hu hatom
    generalize x.value = value at hatom
    have hleaf (w : Token) (hw : w.isLeaf = true) : w.isMark = false := by
      cases w <;> first | rfl | cases hw
    cases hatom with
    | name s =>
      obtain rfl := List.mem_singleton.mp hu
      cases hmark
    | leaf hl =>
      obtain rfl := List.mem_singleton.mp hu
      rw [hleaf u hl] at hmark
      cases hmark
    | product hl =>
      rcases List.mem_cons.mp hu with rfl | hu
      · rw [hleaf u hl] at hmark
        cases hmark
      · obtain rfl := List.mem_singleton.mp hu
        cases hmark
  · intro hminus before u hu
    rw [hstart] at hminus
    have hsubtract := headIs_subtract hs hminus
    unfold fitsBare at hfit
    rw [hu] at hfit
    -- an atomic value has no third token
    have hlength := (hx.sound.atom ha).length_le
    rcases before with - | ⟨w, before⟩
    · split at hfit
      · rename_i heq
        cases heq
      · rename_i heq
        cases heq
      · rename_i heq
        cases heq
        simp [hsubtract] at hfit
      · cases hfit
    · rw [hu, List.cons_append, List.length_cons, List.length_append] at hlength
      simp only [List.length_cons, List.length_nil] at hlength
      omega

/-- What is written for a word is read as what is inserted for its token. -/
theorem Written.scanAll_word (hx : Written x v letter) {cs behind us : List Char} {f : Bool}
    {n : Nat} (hc : Token.isWordStart c = true) (hcs : ∀ d ∈ cs, Token.isWord d = true)
    (hblank : ∀ d ∈ behind, isBlank d = false) (hs : Token.scanAll behind = (ts, none))
    (hbehind : Token.startsWith Token.isWord behind = false)
    (hus : us.head? = behind.head?) (hσ : σ.afterNumber = f)
    (hspaced : Token.Spaced (Token.ofWord (String.ofList (c :: cs)) :: ts))
    (hfit : x.fits σ (Token.ofWord (String.ofList (c :: cs))) ts = true)
    {rs : List Token} (hrest : Token.scanAll us = (rs, none)) :
    Token.scanAll ((x.written? v ⟨c :: cs, n, opensArguments behind, f⟩).getD (c :: cs) ++ us) =
      ((if x.replaces (Token.ofWord (String.ofList (c :: cs))) ts then x.insertion σ
        else [Token.ofWord (String.ofList (c :: cs))]) ++ rs, none) := by
  have hsame : (!opensArguments behind && String.ofList (c :: cs) == x.name) =
      x.replaces (Token.ofWord (String.ofList (c :: cs))) ts := by
    rw [hx.replaces_ofWord, opensArguments_eq_headIs hblank, hs, Bool.and_comm]
  have hstart (p : Char → Bool) : Token.startsWith p us = Token.startsWith p behind := by
    rw [Token.startsWith, Token.startsWith, hus]
  unfold written?
  rw [Identifier.text]
  by_cases hr : x.replaces (Token.ofWord (String.ofList (c :: cs))) ts = true
  · rw [if_pos (hsame.trans hr), if_pos hr, Option.getD_some]
    rw [fits, if_pos hr] at hfit
    have hbare : (x.isAtomic && !f) = x.isBare σ := by rw [isBare, hσ]
    rw [insertion, hbare]
    by_cases hb : x.isBare σ = true
    · have hatomic : x.isAtomic = true := by
        rw [isBare, Bool.and_eq_true] at hb
        exact hb.1
      rw [if_pos hb, if_pos hb]
      rw [if_pos hb] at hfit
      rw [hx.scanAll_bare hatomic hblank hs hbehind hus hspaced
        (Token.endsOperand_ofWord _) hfit, hrest]
    · rw [if_neg hb, if_neg hb]
      have hvalue := Token.scanAll_append hx.tokens (r := ')' :: us) rfl (fun _ _ _ => rfl)
        fun h => by cases h
      rw [Token.scanAll_sign (t := .closing .round) rfl (.inl rfl), hrest] at hvalue
      rw [List.cons_append, List.cons_append, List.append_assoc,
        Token.scanAll_sign (t := .opening .round) rfl (.inl rfl), List.singleton_append, hvalue]
      simp only [List.cons_append, List.append_assoc, List.nil_append]
  · rw [if_neg (by rwa [hsame]), if_neg hr, Option.getD_none, List.cons_append,
      Token.scanAll_word hc hcs (by rw [hstart, hbehind]), hrest]
    rfl

private theorem not_replaces (h : ∀ s, t ≠ .name s) : ¬ x.replaces t ts = true := by
  cases t with
  | name s => exact absurd rfl (h s)
  | _ => exact Bool.noConfusion

private theorem not_replaces_of_isMark (h : t.isMark = true) : ¬ x.replaces t ts = true :=
  not_replaces fun s hname => by
    rw [hname] at h
    cases h

private theorem continuesNumber_of_ofChar (h : Token.ofChar? c = some t) :
    continuesNumber c = false := by
  unfold Token.ofChar? at h
  split at h <;> first | decide | cases h

/-- A number is read as before, with what is written behind it. -/
theorem Written.scanAll_number (hx : Written x v letter)
    (hc : (c.isDigit || c == '.') = true) (hn : (Token.Numeral.span (c :: rest)).1.token = .ok t)
    (hh : Token.hides letter (Token.Numeral.span (c :: rest)) = false) (f : Bool) (n : Nat) :
    ∃ n', ∀ {us : List Token},
      Token.scanAll (x.fillPieces v true n' (Token.Numeral.span (c :: rest)).2) = (us, none) →
      Token.scanAll (x.fillPieces v f n (c :: rest)) = (t :: us, none) := by
  cases hm : Token.Numeral.span (c :: rest) with
  | mk m r =>
    rw [hm] at hn hh
    obtain ⟨heq, hproper, hstops⟩ := Token.Numeral.span_spec hm
    obtain ⟨n', hfill⟩ := fillPieces_numeral (x := x) (v := v) hx.name hproper hstops hn hh f n
    refine ⟨n', fun {us} hus => ?_⟩
    obtain ⟨cs, hchars, -⟩ := Token.Numeral.exists_chars hc hm
    rw [heq, hfill, Token.scanAll_numeral hproper
      (stops_fillPieces (x := x) (v := v) hstops n') hn hchars hc, hus]

/-- The text with the value in the place of the name is read as the tokens with the tokens of
the value in the place of the name. -/
theorem Written.scanAll_fillPieces (hx : Written x v letter) {f : Bool} {n : Nat}
    (hblank : ∀ c ∈ s, isBlank c = false) (hs : Token.scanAll s = (ts, none))
    (hshown : Token.Shown letter s) (hspaced : Token.Spaced ts)
    (hσ : Token.startsWith Token.isWordStart s = true → σ.afterNumber = f)
    (hfit : x.allFit σ ts = true) :
    Token.scanAll (x.fillPieces v f n s) = (x.splice σ ts, none) := by
  fun_induction Token.scanAll s generalizing f n σ ts with
  | case1 =>
    cases hs
    rw [fillPieces_nil, Token.scanAll_nil, splice]
  | case2 c rest hb =>
    rw [hblank c List.mem_cons_self] at hb
    cases hb
  | case3 => cases hs
  | case4 c rest hb t rest' hscan ih =>
    obtain ⟨rfl, hnone⟩ := Prod.mk.inj hs
    have hb : isBlank c = false := by simpa using hb
    rw [allFit, Bool.and_eq_true] at hfit
    obtain ⟨hfit, hrestfit⟩ := hfit
    -- what stands behind the token, whatever is written for the token itself
    have hrest (f' : Bool) (n' : Nat)
        (hsub : ∀ d ∈ rest', isBlank d = false)
        (hf : Token.startsWith Token.isWordStart rest' = true → t.isNumber = f') :
        Token.scanAll (x.fillPieces v f' n' rest') =
          (x.splice (σ.next t) (Token.scanAll rest').1, none) :=
      ih hsub (Prod.ext rfl hnone) (hshown.of_scan hscan) hspaced.tail hf hrestfit
    rw [splice]
    cases Token.scanned_of_scan hscan with
    | number hc hn =>
      have hnumber := Token.Numeral.isNumber_token hn
      have hspan : c :: rest = (Token.Numeral.span (c :: rest)).1.chars ++
          (Token.Numeral.span (c :: rest)).2 := (Token.Numeral.span_spec rfl).1
      have hbehind : ∀ d ∈ (Token.Numeral.span (c :: rest)).2, isBlank d = false := fun d hd =>
        hblank d (by
          rw [hspan]
          exact List.mem_append_right _ hd)
      obtain ⟨n', hread⟩ := hx.scanAll_number hc hn (hshown.span hc hscan) f n
      rw [hread (hrest true n' hbehind fun _ => hnumber), if_neg (not_replaces fun s hname => by
        rw [hname] at hnumber
        cases hnumber)]
      rfl
    | word hw =>
      have hsame :
          c :: (rest.takeWhile Token.isWord ++ rest.dropWhile Token.isWord) = c :: rest := by
        rw [List.takeWhile_append_dropWhile]
      have hbehind : ∀ d ∈ rest.dropWhile Token.isWord, isBlank d = false := fun d hd =>
        hblank d (List.mem_cons_of_mem c ((List.dropWhile_suffix _).mem hd))
      have hstart := startsWith_dropWhile_isWord rest
      rw [fillPieces_word hw]
      exact hx.scanAll_word hw (fun d hd => List.all_eq_true.mp List.all_takeWhile d hd) hbehind
        (Prod.ext rfl hnone) (Token.startsWith_dropWhile _ rest) (head?_fillPieces hstart)
        (hσ hw) hspaced hfit
        (hrest _ _ hbehind fun hword => absurd hword (by rw [hstart]; exact Bool.noConfusion))
    | single hw hc hr =>
      have hmark := Token.isMark_of_ofChar hc
      rw [fillPieces_other hw, continuesNumber_of_ofChar hc,
        Token.scanAll_sign hc (hr.imp id fun hu => hx.unstroked hu _ _),
        hrest _ _ (fun d hd => hblank d (List.mem_cons_of_mem c hd)) fun _ =>
          Token.isNumber_of_isMark hmark,
        if_neg (not_replaces_of_isMark hmark)]
      rfl
    | pair hw hr hc =>
      subst hr
      have hmark := Token.isMark_of_ofPair hc
      have hstroke : continuesNumber '=' = false := by decide
      rw [fillPieces_other hw, fillPieces_other (by decide), hstroke, Token.scanAll_pair hc,
        hrest _ _ (fun d hd => hblank d (List.mem_cons_of_mem c (List.mem_cons_of_mem '=' hd)))
          fun _ => Token.isNumber_of_isMark hmark,
        if_neg (not_replaces_of_isMark hmark)]
      rfl

end Filling

end Reckoner
