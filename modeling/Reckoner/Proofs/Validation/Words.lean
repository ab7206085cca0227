import Reckoner.Proofs.Grammar.Derivation
import Reckoner.Proofs.Grammar.Lexemes
import Reckoner.Text.Identifier

/-!
# Words and names

A text is cut into words in two ways: into the pieces that the checks look at, and into tokens.
The two differ about the exponents of numbers only: `2E5x` has the word `E5x` and the name `x`.
In a text without such words every name is a word, which is marked as a call exactly if a bracket
that can hold arguments follows.
-/

namespace Reckoner.Text

variable {f : Bool} {n : Nat} {s : List Char}

/-- The identifiers are the words among the pieces. -/
theorem mem_identifiers {w : Identifier} : w ∈ identifiers s ↔ Piece.word w ∈ piecesOf s := by
  simp only [identifiers, List.mem_filterMap]
  constructor
  · rintro ⟨p, hp, hw⟩
    cases p with
    | word v =>
      cases hw
      exact hp
    | other c => cases hw
  · exact fun h => ⟨_, h, rfl⟩

/-- A word is cut off as a whole. -/
theorem pieces_word {c : Char} {rest : List Char} (h : Token.isWordStart c = true) :
    pieces f n (c :: rest) =
      .word ⟨c :: rest.takeWhile Token.isWord, n,
        opensArguments (rest.dropWhile Token.isWord), f⟩ ::
        pieces false (n + byteCount (c :: rest.takeWhile Token.isWord))
          (rest.dropWhile Token.isWord) := by
  rw [pieces, if_pos h]

/-- Any other character is a piece of its own. -/
theorem pieces_other {c : Char} {rest : List Char} (h : Token.isWordStart c = false) :
    pieces f n (c :: rest) =
      .other c :: pieces (continuesNumber c) (n + c.utf8Size) rest := by
  rw [pieces, if_neg (by simp [h])]

/-- Only the empty text has no pieces. -/
theorem eq_nil_of_pieces (h : pieces f n s = []) : s = [] := by
  cases s with
  | nil => rfl
  | cons c rest =>
    cases hc : Token.isWordStart c with
    | true => rw [pieces_word hc] at h; cases h
    | false => rw [pieces_other hc] at h; cases h

/-- A text whose first piece is a word starts with that word. -/
theorem exists_of_pieces_word {w : Identifier} {ps : List Piece}
    (h : pieces f n s = .word w :: ps) : ∃ c rest, s = c :: rest ∧ Token.isWordStart c = true ∧
      w = ⟨c :: rest.takeWhile Token.isWord, n, opensArguments (rest.dropWhile Token.isWord), f⟩ ∧
        ps = pieces false (n + byteCount (c :: rest.takeWhile Token.isWord))
          (rest.dropWhile Token.isWord) := by
  cases s with
  | nil => rw [pieces] at h; cases h
  | cons c rest =>
    cases hc : Token.isWordStart c with
    | true =>
      rw [pieces_word hc] at h
      cases h
      exact ⟨c, rest, rfl, hc, rfl, rfl⟩
    | false => rw [pieces_other hc] at h; cases h

/-- A text whose first piece is another character starts with that character. -/
theorem exists_of_pieces_other {c : Char} {ps : List Piece} (h : pieces f n s = .other c :: ps) :
    ∃ rest, s = c :: rest ∧ Token.isWordStart c = false ∧
      ps = pieces (continuesNumber c) (n + c.utf8Size) rest := by
  cases s with
  | nil => rw [pieces] at h; cases h
  | cons c rest =>
    cases hc : Token.isWordStart c with
    | true => rw [pieces_word hc] at h; cases h
    | false =>
      rw [pieces_other hc] at h
      cases h
      exact ⟨rest, rfl, hc, rfl⟩

/-- Replace some of the words of a text, given what precedes it. -/
def replaceFrom (replacement : Identifier → Option (List Char)) (f : Bool) (n : Nat)
    (s : List Char) : List Char :=
  (pieces f n s).flatMap fun piece => match piece with
    | .word w => (replacement w).getD w.name
    | .other c => [c]

section

variable (f n) (replacement : Identifier → Option (List Char)) {c : Char} {rest : List Char}

theorem replaceFrom_nil : replaceFrom replacement f n [] = [] := by
  rw [replaceFrom, pieces, List.flatMap_nil]

/-- A word is replaced or kept, and the rest follows. -/
theorem replaceFrom_word (h : Token.isWordStart c = true) :
    replaceFrom replacement f n (c :: rest) =
      (replacement ⟨c :: rest.takeWhile Token.isWord, n,
        opensArguments (rest.dropWhile Token.isWord), f⟩).getD (c :: rest.takeWhile Token.isWord) ++
      replaceFrom replacement false (n + byteCount (c :: rest.takeWhile Token.isWord))
        (rest.dropWhile Token.isWord) := by
  rw [replaceFrom, pieces_word h, List.flatMap_cons]
  rfl

/-- Another character is kept, and the rest follows. -/
theorem replaceFrom_other (h : Token.isWordStart c = false) :
    replaceFrom replacement f n (c :: rest) =
      c :: replaceFrom replacement (continuesNumber c) (n + c.utf8Size) rest := by
  rw [replaceFrom, pieces_other h, List.flatMap_cons]
  rfl

end

/-- A word looks like the exponent of a number. -/
def Identifier.isExponent (w : Identifier) : Bool :=
  match w.name with
  | 'E' :: d :: _ => d.isDigit
  | _ => false

/-- The pieces of the rest are among those of the text. -/
def Includes (f : Bool) (n : Nat) (s rest : List Char) : Prop :=
  ∃ f' n', ∀ p ∈ pieces f' n' rest, p ∈ pieces f n s

theorem Includes.refl : Includes f n s s := ⟨f, n, fun _ h => h⟩

/-- A text includes the pieces behind its first word. -/
theorem includes_word {c : Char} {rest : List Char} (h : Token.isWordStart c = true) :
    Includes f n (c :: rest) (rest.dropWhile Token.isWord) := by
  rw [Includes, pieces_word h]
  exact ⟨_, _, fun p hp => List.mem_cons_of_mem _ hp⟩

/-- A text includes the pieces behind its first character. -/
theorem includes_other {c : Char} {rest : List Char} (h : Token.isWordStart c = false) :
    Includes f n (c :: rest) rest := by
  rw [Includes, pieces_other h]
  exact ⟨_, _, fun p hp => List.mem_cons_of_mem _ hp⟩

theorem Includes.trans {rest rest' : List Char} (h : Includes f n s rest)
    (h' : ∀ f n, Includes f n rest rest') : Includes f n s rest' := by
  obtain ⟨f', n', hp⟩ := h
  obtain ⟨f'', n'', hp'⟩ := h' f' n'
  exact ⟨f'', n'', fun p h => hp p (hp' p h)⟩

theorem isWordStart_of_isDigit {c : Char} (h : c.isDigit = true) : Token.isWordStart c = false := by
  refine Bool.eq_false_iff.mpr fun hw => ?_
  have hd := Token.isWordStart_not_digit hw
  rw [h, Bool.true_or] at hd
  cases hd

/-- A text includes the pieces behind its leading digits. -/
theorem includes_digits (s : List Char) : ∀ f n, Includes f n s (s.dropWhile Char.isDigit) := by
  induction s with
  | nil => exact fun _ _ => .refl
  | cons c s ih =>
    intro f n
    by_cases hc : c.isDigit = true
    · rw [List.dropWhile_cons_of_pos hc]
      exact (includes_other (isWordStart_of_isDigit hc)).trans ih
    · rw [List.dropWhile_cons_of_neg hc]
      exact .refl

/-- A text includes the pieces behind a fraction. -/
theorem includes_fraction (s : List Char) :
    ∀ f n, Includes f n s (Token.Numeral.spanFraction s).2 := by
  intro f n
  unfold Token.Numeral.spanFraction
  split
  · rename_i rest
    exact (includes_other (by decide)).trans (includes_digits rest)
  · exact .refl

/-- No word looks like an exponent. -/
def NoExponent (f : Bool) (n : Nat) (s : List Char) : Prop :=
  ∀ w, Piece.word w ∈ pieces f n s → w.isExponent = false

/-- Without exponents in a text there are none in its rest. -/
theorem NoExponent.of_includes {f' : Bool} {n' : Nat} {rest : List Char} (h : NoExponent f n s)
    (hp : ∀ p ∈ pieces f' n' rest, p ∈ pieces f n s) : NoExponent f' n' rest :=
  fun w hw => h w (hp _ hw)

/-- A text without exponents includes the pieces behind a power. -/
theorem includes_power (h : NoExponent f n s) : Includes f n s (Token.Numeral.spanPower s).2 := by
  unfold Token.Numeral.spanPower
  split
  · rename_i rest
    have hminus : Includes f n ('E' :: '-' :: rest) ('-' :: rest) :=
      includes_word (by decide)
    refine hminus.trans fun f n => (includes_other (by decide)).trans (includes_digits rest)
  · rename_i c rest _
    split
    · rename_i hc
      have hword : Token.isWord c = true := Token.isWord_of_isDigit hc
      have hfirst := h ⟨'E' :: (c :: rest).takeWhile Token.isWord, n,
        opensArguments ((c :: rest).dropWhile Token.isWord), f⟩ ?_
      · rw [List.takeWhile_cons_of_pos hword] at hfirst
        exact absurd hc (Bool.eq_false_iff.mp hfirst)
      · rw [pieces_word (by decide)]
        exact List.mem_cons_self
    · exact .refl
  · exact .refl

/-- The pieces behind a number are among those of the text. -/
theorem includes_numeral (h : NoExponent f n s) : Includes f n s (Token.Numeral.span s).2 := by
  obtain ⟨f', n', hp⟩ := (includes_digits s f n).trans (includes_fraction _)
  obtain ⟨f'', n'', hp'⟩ := includes_power (h.of_includes hp)
  exact ⟨f'', n'', fun p h => hp p (hp' p h)⟩

private theorem spanPower_suffix (s : List Char) : (Token.Numeral.spanPower s).2 <:+ s := by
  unfold Token.Numeral.spanPower
  split
  · exact (List.dropWhile_suffix _).trans
      ((List.suffix_cons '-' _).trans (List.suffix_cons 'E' _))
  · split
    · exact (List.dropWhile_suffix _).trans (List.suffix_cons 'E' _)
    · exact List.suffix_rfl
  · exact List.suffix_rfl

private theorem spanFraction_suffix (s : List Char) :
    (Token.Numeral.spanFraction s).2 <:+ s := by
  unfold Token.Numeral.spanFraction
  split
  · exact (List.dropWhile_suffix _).trans (List.suffix_cons '.' _)
  · exact List.suffix_rfl

/-- A number is cut off at the front. -/
theorem span_suffix (s : List Char) : (Token.Numeral.span s).2 <:+ s :=
  (spanPower_suffix _).trans ((spanFraction_suffix _).trans (List.dropWhile_suffix _))

/-- A token that opens arguments is written as a bracket that can hold arguments. -/
theorem opensArguments_of_scan {c : Char} {rest rest' : List Char} {t : Token}
    (h : Token.scan c rest = .ok (t, rest')) (ht : t.opensCall = true) :
    opensArguments (c :: rest) = true := by
  cases Token.scanned_of_scan h with
  | number _ hn =>
    have hnumber := Token.Numeral.isNumber_token hn
    cases t with
    | opening b => cases hnumber
    | _ => cases ht
  | word hw =>
    unfold Token.ofWord at ht
    split at ht
    · cases ht
    · split at ht <;> cases ht
  | single _ hc =>
    unfold Token.ofChar? at hc
    split at hc <;> cases hc <;> first | rfl | cases ht
  | pair _ _ hc =>
    unfold Token.ofPair? at hc
    split at hc <;> cases hc <;> cases ht

/-- The first token that opens arguments stands at the start of the text. -/
theorem opensArguments_of_scanAll {t : Token} {ts : List Token}
    (hblank : ∀ c ∈ s, isBlank c = false) (h : (Token.scanAll s).1 = t :: ts)
    (ht : t.opensCall = true) : opensArguments s = true := by
  cases s with
  | nil =>
    rw [Token.scanAll_nil] at h
    cases h
  | cons c rest =>
    obtain ⟨rest', hs⟩ := Token.exists_scan_of_head (hblank c List.mem_cons_self) h
    exact opensArguments_of_scan hs ht

/-- A bracket that can hold arguments is a token that opens them. -/
theorem opensArguments_eq_headIs (hblank : ∀ c ∈ s, isBlank c = false) :
    opensArguments s = Grammar.headIs Token.opensCall (Token.scanAll s).1 := by
  rw [Bool.eq_iff_iff]
  constructor
  · intro h
    cases s with
    | nil => cases h
    | cons c s =>
      rw [opensArguments, Bool.or_eq_true, beq_iff_eq, beq_iff_eq] at h
      rcases h with rfl | rfl
      · rw [Token.scanAll_sign (t := .opening .round) rfl (.inl rfl)]
        rfl
      · rw [Token.scanAll_sign (t := .opening .square) rfl (.inl rfl)]
        rfl
  · intro h
    cases hts : (Token.scanAll s).1 with
    | nil =>
      rw [hts] at h
      cases h
    | cons t ts =>
      rw [hts] at h
      exact opensArguments_of_scanAll hblank hts h

/-- A name is cut off as a word, and is no truth value. -/
theorem name_of_scan {c : Char} {rest rest' : List Char} {t : Token} {x : String}
    (h : Token.scan c rest = .ok (t, rest')) (ht : t = .name x) :
    Token.isWordStart c = true ∧ x = String.ofList (c :: rest.takeWhile Token.isWord) ∧
      rest' = rest.dropWhile Token.isWord ∧ Token.ofWord x = .name x := by
  cases Token.scanned_of_scan h with
  | number hc hn =>
    have hnumber := Token.Numeral.isNumber_token hn
    rw [ht] at hnumber
    cases hnumber
  | word hw =>
    have hx : x = String.ofList (c :: rest.takeWhile Token.isWord) := by
      unfold Token.ofWord at ht
      split at ht
      · cases ht
      · split at ht <;> cases ht
        rfl
    refine ⟨hw, hx, rfl, ?_⟩
    rw [hx]
    exact ht.trans (congrArg Token.name hx)
  | single hw hc =>
    rw [ht] at hc
    unfold Token.ofChar? at hc
    split at hc <;> cases hc
  | pair hw hr hc =>
    rw [ht] at hc
    unfold Token.ofPair? at hc
    split at hc <;> cases hc

/-- A name is a word, which is marked as a call if a bracket that can hold arguments follows. -/
theorem exists_word_of_tokens {x : String} {before behind : List Token}
    (hE : NoExponent f n s) (hblank : ∀ c ∈ s, isBlank c = false)
    (ht : (Token.scanAll s).1 = before ++ .name x :: behind) :
    ∃ w, Piece.word w ∈ pieces f n s ∧ w.text = x ∧
      w.isCall = Grammar.headIs Token.opensCall behind := by
  fun_induction Token.scanAll s generalizing f n before with
  | case1 => simp at ht
  | case2 c rest hc ih =>
    rw [hblank c List.mem_cons_self] at hc
    cases hc
  | case3 c rest hc e he => simp at ht
  | case4 c rest hc t rest' hs ih =>
    -- a name that is not the first token is found behind it
    have hmore (hinc : Includes f n (c :: rest) rest') (hsub : rest' <:+ c :: rest)
        (before' : List Token)
        (hbehind : (Token.scanAll rest').1 = before' ++ .name x :: behind) :
        ∃ w, Piece.word w ∈ pieces f n (c :: rest) ∧ w.text = x ∧
          w.isCall = Grammar.headIs Token.opensCall behind := by
      obtain ⟨f', n', hp⟩ := hinc
      obtain ⟨w, hw, hwx⟩ := ih (hE.of_includes hp) (fun d hd => hblank d (hsub.mem hd)) hbehind
      exact ⟨w, hp _ hw, hwx⟩
    cases before with
    | cons t' before' =>
      obtain ⟨rfl, hbehind⟩ := List.cons.inj ht
      cases Token.scanned_of_scan hs with
      | number hc hn => exact hmore (includes_numeral hE) (span_suffix _) before' hbehind
      | word hw =>
        exact hmore (includes_word hw)
          ((List.dropWhile_suffix _).trans (List.suffix_cons c rest)) before' hbehind
      | single hw => exact hmore (includes_other hw) (List.suffix_cons c _) before' hbehind
      | pair hw hr =>
        subst hr
        refine hmore ((includes_other hw).trans fun _ _ => includes_other (by decide)) ?_ before'
          hbehind
        exact (List.suffix_cons '=' _).trans (List.suffix_cons c _)
    | nil =>
      obtain ⟨hname, hbehind⟩ := List.cons.inj ht
      obtain ⟨hw, hx, rfl, -⟩ := name_of_scan hs hname
      have hopens : opensArguments (rest.dropWhile Token.isWord) =
          Grammar.headIs Token.opensCall behind := by
        rw [← hbehind]
        refine opensArguments_eq_headIs fun d hd => ?_
        exact hblank d (List.mem_cons_of_mem c ((List.dropWhile_suffix _).mem hd))
      rw [pieces_word hw]
      exact ⟨_, List.mem_cons_self, hx.symm, hopens⟩

end Reckoner.Text
