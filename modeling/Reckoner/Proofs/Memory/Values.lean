import Reckoner.Proofs.Memory.Bare
import Reckoner.Proofs.Memory.Constants
import Reckoner.Proofs.Memory.Substitution
import Reckoner.Proofs.Validation.Whitelist

/-!
# Values that are no expressions

The value of an assignment is not looked at until it is written in the place of its letter. An
atomic value can be read alone wherever it is written without brackets. In brackets it is read alone
as well, or as arguments behind something that can be called, as long as its own brackets balance.
A value that can be read neither way is found out by validation.
-/

namespace Reckoner

open Text Token Validation

namespace Text

/-! ## The place of a word -/

/-- What is written for a piece. -/
def Piece.written (replacement : Identifier → Option (List Char)) : Piece → List Char
  | word w => (replacement w).getD w.name
  | other c => [c]

/-- No word reaches up to the end of the text. -/
def EndsNoWord (s : List Char) : Prop :=
  ∀ s' c w, s = s' ++ c :: w → isWordStart c = true → ∃ d ∈ w, isWord d = false

/-- What stands around a word in a text with replacements. -/
structure Placed (replacement : Identifier → Option (List Char)) (f : Bool) (ps : List Piece)
    (w : Identifier) (qs : List Piece) : Prop where
  /-- Nothing stands before the word, or a character that is no part of a word. -/
  before : ps = [] ∧ w.followsNumber = f ∨ ∃ ps' d, ps = ps' ++ [.other d] ∧
    isWordStart d = false ∧ w.followsNumber = continuesNumber d
  /-- What is written before the word ends in no other word. -/
  apart : EndsNoWord (ps.flatMap (Piece.written replacement))
  /-- No word goes on behind it. -/
  stops : startsWith isWord (qs.flatMap (Piece.written replacement)) = false

variable {replacement : Identifier → Option (List Char)} {f : Bool} {n : Nat} {s : List Char}
  {ps qs : List Piece} {w : Identifier}

theorem endsNoWord_nil : EndsNoWord [] := fun s' c w h =>
  absurd h.symm (List.append_ne_nil_of_right_ne_nil s' (List.cons_ne_nil c w))

/-- Behind a character that starts no word none ends either. -/
theorem EndsNoWord.cons {c : Char} (hc : isWordStart c = false) (h : EndsNoWord s) :
    EndsNoWord (c :: s) := by
  intro s' d w hs hd
  cases s' with
  | nil =>
    rw [(List.cons.inj hs).1, hd] at hc
    cases hc
  | cons e s' => exact h s' d w (List.cons.inj hs).2 hd

/-- Behind a character that is no part of a word everything is apart from what stands before. -/
theorem EndsNoWord.behind {c : Char} (hc : isWord c = false) (h : EndsNoWord (c :: s))
    (r : List Char) : EndsNoWord (r ++ c :: s) := by
  intro s' d w hs hd
  rcases List.append_eq_append_iff.mp hs with ⟨v, rfl, hv⟩ | ⟨v, rfl, hv⟩
  · exact h v d w hv hd
  · cases v with
    | nil => exact h [] d w hv.symm hd
    | cons e v =>
      rw [List.cons_append] at hv
      obtain ⟨-, rfl⟩ := List.cons.inj hv
      exact ⟨c, List.mem_append_right v List.mem_cons_self, hc⟩

/-- Behind a word no other one can follow at once. -/
theorem pieces_dropWhile_ne (w : Identifier) (ps : List Piece) :
    pieces f n (s.dropWhile isWord) ≠ .word w :: ps := by
  intro h
  obtain ⟨d, rest, hrest, hd, -⟩ := exists_of_pieces_word h
  have hword := startsWith_dropWhile isWord s
  rw [hrest, startsWith_cons, isWord_of_isWordStart hd] at hword
  cases hword

/-- The pieces around a word of a text are placed around it. -/
theorem placed_of_pieces (h : pieces f n s = ps ++ .word w :: qs) :
    Placed replacement f ps w qs := by
  induction s using wordsInduction generalizing f n ps with
  | nil =>
    rw [pieces] at h
    exact absurd h.symm (List.append_ne_nil_of_right_ne_nil ps (List.cons_ne_nil _ qs))
  | other c rest hc ih =>
    rw [pieces_other hc] at h
    cases ps with
    | nil => cases h
    | cons p ps =>
      obtain ⟨rfl, hrest⟩ := List.cons.inj h
      have hplaced := ih hrest
      refine ⟨.inr ?_, ?_, hplaced.stops⟩
      · rcases hplaced.before with ⟨rfl, hfollows⟩ | ⟨ps', d, rfl, hd⟩
        · exact ⟨[], c, rfl, hc, hfollows⟩
        · exact ⟨.other c :: ps', d, rfl, hd⟩
      · exact hplaced.apart.cons hc
  | word c rest hc ih =>
    rw [pieces_word hc] at h
    have hword := startsWith_dropWhile isWord rest
    cases ps with
    | nil =>
      obtain ⟨hw, rfl⟩ := List.cons.inj h
      cases hw
      exact ⟨.inl ⟨rfl, rfl⟩, endsNoWord_nil, (startsWith_replaceFrom replacement false _ rest).1⟩
    | cons p ps =>
      obtain ⟨rfl, hrest⟩ := List.cons.inj h
      have hplaced := ih hrest
      cases ps with
      | nil => exact absurd hrest (pieces_dropWhile_ne _ _)
      | cons p ps =>
        cases p with
        | word v => exact absurd hrest (pieces_dropWhile_ne _ _)
        | other d =>
          obtain ⟨behind, hbehind, -⟩ := exists_of_pieces_other hrest
          rw [hbehind] at hword
          refine ⟨.inr ?_, hplaced.apart.behind hword _, hplaced.stops⟩
          rcases hplaced.before with ⟨hnil, -⟩ | ⟨ps', e, hps, he⟩
          · cases hnil
          · exact ⟨_ :: ps', e, by rw [hps, List.cons_append], he⟩

end Text

/-! ## Readings of a value -/

namespace Grammar

/-- What is read of tokens is read of a text with other names and fewer brackets as well. -/
theorem exists_parse_of_rebracketed {f : String → String} {s : String} {ts ts' : List Token}
    {k : Nat} {e : Expr} (hs : scanAll s.toList = (ts', none)) (hr : Rebracketed f 0 false ts ts')
    (h : Nested k (.expression e) ts []) (hk : k < maxLevels) (he : e.height ≤ maxHeight) :
    ∃ e', parse s = .ok e' := by
  obtain ⟨k', e', hk', hrename, hn⟩ := h.of_rebracketed hr
  refine ⟨e', (parse_of_nested hs hn).trans (if_pos ⟨by omega, ?_⟩)⟩
  rw [Expr.depth_eq_of_rename hrename, Expr.depth_eq_height]
  exact he

end Grammar

namespace Memory

/-- If the text can be read to its end, each of its brackets closes the one that it should, and
none is left open. -/
def balances (s : List Char) : Bool :=
  match scanAll s with
  | (ts, none) => unclosed 0 ts == some 0
  | (_, some _) => true

/-- The normal form of a text in curly brackets. -/
def braced (v : String) : String := String.ofList ('\x7b' :: (normalizeChars v.toList ++ ['\x7d']))

/-- The letter stands behind the pieces and is not called. -/
def UsedBehind (letter : Char) (t : String) (ps : List Piece) : Prop :=
  ∃ w qs, piecesOf t.toList = ps ++ .word w :: qs ∧ w.text = String.singleton letter ∧
    w.isCall = false

/-- The last piece is a closing bracket, which can end the name of a call. -/
def endsInBracket (ps : List Piece) : Bool :=
  ps.getLast? == some (.other ')') || ps.getLast? == some (.other ']')

/-- A letter is assigned a text that is no expression, and another text is no assignment. -/
structure Malformed (letter : Char) (v t : String) : Prop where
  /-- A letter of ASCII. -/
  isAlpha : letter.isAlpha = true
  /-- There is a value. -/
  value_ne : v.toList ≠ []
  /-- The value has no blanks. -/
  value_blank : ∀ c ∈ v.toList, isBlank c = false
  /-- The value has no equality stroke. -/
  value_stroke : '=' ∉ v.toList
  /-- The value is no expression. -/
  value_rejected : (Grammar.parse (Validation.normalize v)).isOk = false
  /-- The text has no blanks. -/
  text_blank : ∀ c ∈ t.toList, isBlank c = false
  /-- The text is no assignment. -/
  text_assignment : splitAssignment? t.toList = none

instance (letter : Char) (v t : String) : Decidable (Malformed letter v t) :=
  decidable_of_iff (letter.isAlpha = true ∧ v.toList ≠ [] ∧ v.toList.all (!isBlank ·) = true ∧
      '=' ∉ v.toList ∧ (Grammar.parse (Validation.normalize v)).isOk = false ∧
      t.toList.all (!isBlank ·) = true ∧ splitAssignment? t.toList = none) (by
    simp only [List.all_eq_true, Bool.not_eq_true']
    exact ⟨fun ⟨h₁, h₂, h₃, h₄, h₅, h₆, h₇⟩ => ⟨h₁, h₂, h₃, h₄, h₅, h₆, h₇⟩,
      fun ⟨h₁, h₂, h₃, h₄, h₅, h₆, h₇⟩ => ⟨h₁, h₂, h₃, h₄, h₅, h₆, h₇⟩⟩)

/-- The memory behind the assignment. -/
def assigned (letter : Char) (v : String) : Memory :=
  (initial.apply (String.ofList (letter :: '=' :: v.toList))).2

/-- The value in its normal form, with the engine's names of constants. -/
def valueChars (v : String) : List Char := initial.substitute (normalizeChars v.toList)

variable {letter : Char} {v t : String} {ps qs : List Piece} {w : Identifier}

/-- Without blanks only brackets are normalized. -/
theorem Malformed.normalizeChars_eq {s : String} (hs : ∀ c ∈ s.toList, isBlank c = false) :
    normalizeChars s.toList = Text.rounded s.toList := by
  rw [normalizeChars_eq_dropBlanks, dropBlanks_rounded, dropBlanks_eq_self hs]

/-- The normal form of what is written has the value in its normal form. -/
theorem Malformed.normalize_eq (h : Malformed letter v t) :
    (Validation.normalize ((assigned letter v).apply t).1.text).toList =
      (initial.bind (String.singleton letter) (valueChars v)).substitute
        (normalizeChars t.toList) := by
  have hblank : ∀ c ∈ letter :: '=' :: v.toList, isBlank c = false := by
    intro c hc
    rcases List.mem_cons.mp hc with rfl | hc
    · exact isBlank_of_goesOn (by rw [goesOn, isWord_of_isAlpha h.isAlpha, Bool.true_or])
    · rcases List.mem_cons.mp hc with rfl | hc
      · decide
      · exact h.value_blank c hc
  have hsplit : splitAssignment? (letter :: '=' :: v.toList) = some (letter, v.toList) := by
    refine if_pos ?_
    rw [h.isAlpha, List.isEmpty_eq_false_iff.mpr h.value_ne]
    simpa using h.value_stroke
  have hmemory : assigned letter v =
      initial.bind (String.singleton letter) (initial.substitute v.toList) := by
    simp only [assigned, apply, String.toList_ofList, dropBlanks_eq_self hblank, hsplit]
  have hvalue : Text.rounded (initial.substitute v.toList) = valueChars v := by
    rw [← substitute_rounded, rounded_initial, valueChars, normalizeChars_eq h.value_blank]
  have hsplit' : splitAssignment? (dropBlanks t.toList) = none := by
    rw [dropBlanks_eq_self h.text_blank, h.text_assignment]
  have hblankless : (assigned letter v).Blankless := blankless_initial.apply _
  rw [normalize_apply hblankless hsplit', hmemory, rounded_bind, rounded_initial, hvalue]

/-! ## The value in a text -/

/-- A value is written without blanks. -/
theorem isBlank_of_mem_valueChars {c : Char} (hc : c ∈ valueChars v) : isBlank c = false :=
  isBlank_of_mem_reading hc

/-- The value has the tokens of its text, but for constants and the brackets around them. -/
theorem readAlike_valueChars (v : String) :
    ReadAlike (fun _ => "") 0 false (valueChars v) (normalizeChars v.toList) :=
  (respelled_initial false 0 _).readAlike (fun _ hc => isBlank_of_mem_valueChars hc) (.inl trivial)

/-- If the value can be read, so can its text, and only names of constants differ. -/
theorem exists_scanAll_normalizeChars {ts : List Token} (hs : scanAll (valueChars v) = (ts, none)) :
    ∃ ts', scanAll (normalizeChars v.toList) = (ts', none) ∧
      Grammar.Rebracketed (fun _ => "") 0 false ts ts' := by
  obtain ⟨htokens, hfault, -⟩ := readAlike_valueChars v
  rw [hs] at htokens hfault
  exact ⟨_, Prod.ext rfl (Option.not_isSome_iff_eq_none.mp (by rw [hfault]; exact nofun)), htokens⟩

/-- What can be read of the value alone can be read of its text. -/
theorem exists_parse_of_value {ts : List Token} {k : Nat} {e : Expr}
    (hs : scanAll (valueChars v) = (ts, none)) (h : Grammar.Nested k (.expression e) ts [])
    (hk : k < Grammar.maxLevels) (he : e.height ≤ Grammar.maxHeight) :
    ∃ e', Grammar.parse (Validation.normalize v) = .ok e' := by
  obtain ⟨ts', hts', hr⟩ := exists_scanAll_normalizeChars hs
  exact Grammar.exists_parse_of_rebracketed (by rwa [Validation.normalize, String.toList_ofList]) hr
    h hk he

/-- What can be read of the value in curly brackets can be read of its text in them. -/
theorem exists_parse_of_braced {ts : List Token} {k : Nat} {e : Expr}
    (hs : scanAll (valueChars v) = (ts, none))
    (h : Grammar.Nested k (.expression e) (.opening .curly :: (ts ++ [.closing .curly])) [])
    (hk : k < Grammar.maxLevels) (he : e.height ≤ Grammar.maxHeight) :
    ∃ e', Grammar.parse (braced v) = .ok e' := by
  obtain ⟨ts', hts', hr⟩ := exists_scanAll_normalizeChars hs
  refine Grammar.exists_parse_of_rebracketed ?_ (.mark rfl (hr.append_closing .curly)) h hk he
  have hclosing : scanAll ['\x7d'] = ([.closing .curly], none) := by
    rw [scanAll_sign rfl (.inl rfl), scanAll_nil]
  have hbehind := scanAll_append hts' (r := ['\x7d']) rfl (fun _ _ _ => rfl) nofun
  rw [hclosing] at hbehind
  rw [braced, String.toList_ofList, scanAll_sign rfl (.inl rfl), hbehind]

/-- No letter, digit, underscore or point stands before a word that follows no number. -/
theorem goesOn_of_placed {replacement : Identifier → Option (List Char)}
    (h : Placed replacement false ps w qs) (hfollows : w.followsNumber = false) :
    ∀ c ∈ (ps.flatMap (Piece.written replacement)).getLast?, goesOn c = false := by
  rcases h.before with ⟨rfl, -⟩ | ⟨ps', d, rfl, hstart, hnumber⟩
  · exact nofun
  · intro c hc
    rw [List.flatMap_append, List.flatMap_singleton, Piece.written, List.getLast?_concat] at hc
    obtain rfl := Option.some.inj hc
    rw [hfollows, continuesNumber] at hnumber
    rw [isWordStart] at hstart
    rw [goesOn, isWord, Char.isAlphanum]
    revert hnumber hstart
    cases d.isAlpha <;> cases d.isDigit <;> cases d == '_' <;> cases d == '.' <;> decide

/-- Only a bracket that stands before a word can end what it calls. -/
theorem endsCallee_of_placed {replacement : Identifier → Option (List Char)} {ts : List Token}
    {u : Token} (h : Placed replacement false ps w qs)
    (hb : ∀ c ∈ ps.flatMap (Piece.written replacement), isBlank c = false)
    (hs : scanAll (ps.flatMap (Piece.written replacement)) = (ts ++ [u], none))
    (hu : u.endsCallee = true) : ps.getLast? = some (.other ')') := by
  obtain ⟨s', c, r, hsplit, hscan⟩ := exists_scan_last hb hs
  rw [← List.append_nil r] at hscan
  cases made_of_scan hscan with
  | number _ _ _ ht =>
    have hnumber := Numeral.isNumber_token ht
    cases u <;> first | (cases hnumber; done) | cases hu
  | word hc hword _ =>
    obtain ⟨d, hd, hd'⟩ := h.apart s' c r hsplit hc
    rw [hword d hd] at hd'
    cases hd'
  | pair hpair _ =>
    unfold ofPair? at hpair
    split at hpair <;> cases hpair <;> cases hu
  | single hsingle hnil =>
    subst hnil
    obtain rfl : c = ')' := by
      unfold ofChar? at hsingle
      split at hsingle <;> cases hsingle <;> first | rfl | cases hu
    have hlast : (ps.flatMap (Piece.written replacement)).getLast? = some ')' := by
      rw [hsplit, List.getLast?_concat]
    rcases h.before with ⟨rfl, -⟩ | ⟨ps', d, rfl, -⟩
    · cases hlast
    · rw [List.flatMap_append, List.flatMap_singleton, Piece.written, List.getLast?_concat] at hlast
      rw [List.getLast?_concat, Option.some.inj hlast]

/-- What is written for the letter. -/
theorem replacement_bound (htext : w.text = String.singleton letter) (hcall : w.isCall = false)
    (value : List Char) : (initial.bind (String.singleton letter) value).replacement w =
      some (if isAtomic value && !w.followsNumber then value else '(' :: value ++ [')']) := by
  rw [replacement, hcall, if_neg Bool.false_ne_true, resolve?_bind, if_pos htext, Option.map_some]

/-- An atomic value without brackets can be read alone. -/
theorem exists_parse_of_bare {n : String} {a z : List Char} {e : Expr}
    (hn : n.toList = a ++ valueChars v ++ z) (hblank : ∀ c ∈ n.toList, isBlank c = false)
    (ha : ∀ c ∈ a.getLast?, goesOn c = false) (hz : startsWith isWord z = false)
    (hatomic : isAtomic (valueChars v) = true) (hE : NoExponent false 0 n.toList)
    (hparse : Grammar.parse n = .ok e) :
    ∃ e', Grammar.parse (Validation.normalize v) = .ok e' := by
  rw [isAtomic, Bool.and_eq_true, Bool.not_eq_true', List.isEmpty_eq_false_iff,
    List.all_eq_true] at hatomic
  obtain ⟨ts, hscan, hderives, -⟩ := Grammar.derives_of_parse hparse
  rw [hn] at hblank hE hscan
  obtain ⟨us, hus, hspaced⟩ := exists_tokens_between hblank ha hatomic.2 hatomic.1 hz hE hscan
    (hderives.spaced trivial rfl).1
  have hvalue : (String.ofList (valueChars v)).toList = valueChars v := String.toList_ofList
  obtain ⟨e', he'⟩ := Grammar.exists_parse_of_atomic (v := String.ofList (valueChars v))
    (by rw [hvalue]; exact hatomic.2) (by rw [hvalue]; exact hatomic.1) (by rw [hvalue]; exact hus)
    hspaced
  obtain ⟨us', k, hus', hnested, hk, hdepth⟩ := Grammar.nested_of_parse he'
  rw [hvalue] at hus'
  exact exists_parse_of_value hus' hnested hk (Expr.depth_eq_height e' ▸ hdepth)

/-- A value in brackets can be read alone, or as arguments behind what ends in front of it. -/
theorem exists_parse_of_bracketed {n : String} {a z : List Char} {e : Expr}
    (hn : n.toList = a ++ '(' :: (valueChars v ++ ')' :: z))
    (ha : ∀ c ∈ a, isBlank c = false) (hparse : Grammar.parse n = .ok e)
    (hbalance : balances (normalizeChars v.toList) = true) :
    (∃ e', Grammar.parse (Validation.normalize v) = .ok e') ∨
      (∃ ts u, scanAll a = (ts ++ [u], none) ∧ u.endsCallee = true) ∧
        ∃ e', Grammar.parse (braced v) = .ok e' := by
  obtain ⟨ts, k, hscan, hnested, hk, hdepth⟩ := Grammar.nested_of_parse hparse
  rw [hn] at hscan
  rw [Expr.depth_eq_height] at hdepth
  obtain ⟨before, rest, hbefore, hrest, rfl⟩ := scanAll_at_bracket rfl rfl rfl ha hscan
  obtain ⟨us, behind, hus, -, rfl⟩ :=
    scanAll_at_bracket rfl rfl rfl (fun _ => isBlank_of_mem_valueChars) hrest
  have hbalanced : unclosed 0 us = some 0 := by
    obtain ⟨us', hus', hr⟩ := exists_scanAll_normalizeChars hus
    rw [balances, hus'] at hbalance
    rw [← hr.unclosed_eq]
    exact eq_of_beq hbalance
  rcases hnested.of_balanced hbalanced with
    ⟨j, e', hj, hheight, hn'⟩ | ⟨⟨q, u, rfl, hu⟩, j, e', hj, hheight, hn'⟩
  · exact .inl (exists_parse_of_value hus hn' (hj.trans hk) (hheight.trans hdepth))
  · exact .inr ⟨⟨q, u, hbefore, hu⟩,
      exists_parse_of_braced hus hn' (hj.trans_lt hk) (hheight.trans hdepth)⟩

/-- In a text that passes the checks and is an expression, the value can be read alone, or as
arguments behind a bracket that closes there. -/
theorem exists_parse_of_used {n : String} {e : Expr}
    (hn : n.toList = (initial.bind (String.singleton letter) (valueChars v)).substitute
      (normalizeChars t.toList))
    (hblank : ∀ c ∈ n.toList, isBlank c = false)
    (hpieces : piecesOf (normalizeChars t.toList) = ps ++ .word w :: qs)
    (htext : w.text = String.singleton letter) (hcall : w.isCall = false)
    (hE : NoExponent false 0 n.toList) (hparse : Grammar.parse n = .ok e)
    (hbalance : balances (normalizeChars v.toList) = true) :
    (∃ e', Grammar.parse (Validation.normalize v) = .ok e') ∨
      ps.getLast? = some (.other ')') ∧ ∃ e', Grammar.parse (braced v) = .ok e' := by
  have hword := replacement_bound htext hcall (valueChars v)
  have hsplit : n.toList = ((piecesOf (normalizeChars t.toList)).flatMap (Piece.written
    (initial.bind (String.singleton letter) (valueChars v)).replacement)) := hn
  generalize (initial.bind (String.singleton letter) (valueChars v)).replacement = replacement
    at hword hsplit
  have hplaced : Placed replacement false ps w qs := placed_of_pieces hpieces
  rw [hpieces, List.flatMap_append, List.flatMap_cons] at hsplit
  have hbefore (c : Char) (hc : c ∈ ps.flatMap (Piece.written replacement)) : isBlank c = false :=
    hblank c (hsplit ▸ List.mem_append_left _ hc)
  have hvalue : Piece.written replacement (.word w) =
      if isAtomic (valueChars v) && !w.followsNumber then valueChars v
      else '(' :: valueChars v ++ [')'] := by
    rw [Piece.written, hword, Option.getD_some]
  split at hvalue
  · rename_i hbare
    rw [Bool.and_eq_true, Bool.not_eq_true'] at hbare
    rw [hvalue, ← List.append_assoc] at hsplit
    exact .inl (exists_parse_of_bare hsplit hblank (goesOn_of_placed hplaced hbare.2)
      hplaced.stops hbare.1 hE hparse)
  · rw [hvalue, List.cons_append, List.cons_append, List.append_assoc,
      List.singleton_append] at hsplit
    refine (exists_parse_of_bracketed hsplit hbefore hparse hbalance).imp_right ?_
    rintro ⟨⟨ts, u, hts, hu⟩, hbraced⟩
    exact ⟨endsCallee_of_placed hplaced hbefore hts hu, hbraced⟩

/-- In the normal form of a text the letter stands behind the same pieces. -/
theorem UsedBehind.normal (h : UsedBehind letter t ps) (hb : ∀ c ∈ t.toList, isBlank c = false) :
    ∃ w qs, piecesOf (normalizeChars t.toList) = ps.map Piece.rounded ++ .word w :: qs ∧
      w.text = String.singleton letter ∧ w.isCall = false := by
  obtain ⟨w, qs, hpieces, hw⟩ := h
  refine ⟨w, qs.map Piece.rounded, ?_, hw⟩
  rw [piecesOf, Malformed.normalizeChars_eq hb, pieces_rounded, ← piecesOf, hpieces,
    List.map_append, List.map_cons]
  rfl

/-- A round closing bracket may have been a square one. -/
theorem endsInBracket_of_rounded (h : (ps.map Piece.rounded).getLast? = some (.other ')')) :
    endsInBracket ps = true := by
  rw [List.getLast?_map, Option.map_eq_some_iff] at h
  obtain ⟨p, hp, hround⟩ := h
  cases p with
  | word w => cases hround
  | other c =>
    have hc : roundBracket c = ')' := Piece.other.inj hround
    have hcases : c = ']' ∨ c = ')' := by
      unfold roundBracket at hc
      split at hc
      · cases hc
      · split at hc
        · exact .inl ‹_›
        · exact .inr hc
    rw [endsInBracket, hp]
    rcases hcases with rfl | rfl <;> rfl

/-- A value that is no expression is found out by validation wherever its letter is used, if its
brackets balance and the letter does not stand behind a closing bracket, or the value makes up no
arguments either. -/
theorem refuses_malformed (h : Malformed letter v t)
    (hbalance : balances (normalizeChars v.toList) = true)
    (hused : ∃ ps, UsedBehind letter t ps ∧
      ((Grammar.parse (braced v)).isOk = false ∨ endsInBracket ps = false))
    (s : Service Builtin.State) : ∃ failure,
      ((Service.validate Engine.builtin ((assigned letter v).apply t).1.text).run.run s).1 =
        .error failure := by
  cases hresult : ((Service.validate Engine.builtin
      ((assigned letter v).apply t).1.text).run.run s).1 with
  | error failure => exact ⟨failure, rfl⟩
  | ok n =>
    exfalso
    obtain ⟨-, hn, hg, hs, e, hparse⟩ := validate_iff.mp hresult
    obtain ⟨ps, huse, hlist⟩ := hused
    obtain ⟨w, qs, hpieces, htext, hcall⟩ := huse.normal h.text_blank
    have hblank (c : Char) (hc : c ∈ n.toList) : isBlank c = false := by
      rw [hn] at hc
      exact isBlank_of_mem_normalize hc
    have hread := exists_parse_of_used (by rw [hn, h.normalize_eq]) hblank hpieces htext hcall
      (noExponent_of_checks hg hs) hparse hbalance
    rcases hread with ⟨e', he'⟩ | ⟨hlast, e', he'⟩
    · have hrejected := h.value_rejected
      rw [he'] at hrejected
      cases hrejected
    · rcases hlist with hlist | hlist
      · rw [he'] at hlist
        cases hlist
      · rw [endsInBracket_of_rounded hlast] at hlist
        cases hlist

/-- Two numbers with a comma between them could be arguments of the first bracket, but no factor of
the number behind it. -/
theorem refuses_malformed_list :
    Malformed 'v' "1,2" "(x)v+2v" ∧ balances (normalizeChars "1,2".toList) = true ∧
      (∃ ps, UsedBehind 'v' "(x)v+2v" ps ∧
        ((Grammar.parse (braced "1,2")).isOk = false ∨ endsInBracket ps = false)) ∧
      ∃ failure, ((Service.validate Engine.builtin
        ((assigned 'v' "1,2").apply "(x)v+2v").1.text).run.run idleService).1 =
          .error failure := by
  have h : Malformed 'v' "1,2" "(x)v+2v" := by decide +kernel
  have hbalance : balances (normalizeChars "1,2".toList) = true := by decide +kernel
  have hused : ∃ ps, UsedBehind 'v' "(x)v+2v" ps ∧
      ((Grammar.parse (braced "1,2")).isOk = false ∨ endsInBracket ps = false) :=
    ⟨[.other '(', .word ⟨['x'], 1, false, false⟩, .other ')', .word ⟨['v'], 3, false, false⟩,
      .other '+', .other '2'], ⟨⟨['v'], 6, false, true⟩, [], by decide +kernel, rfl, rfl⟩,
      .inr (by decide)⟩
  exact ⟨h, hbalance, hused, refuses_malformed h hbalance hused idleService⟩

/-- Brackets of a value can close the ones that are written around it, so that an accepted text has
a value that is no expression. -/
theorem validate_misses_malformed :
    ¬ ∀ (letter : Char) (v t : String), Malformed letter v t →
      (∃ ps, UsedBehind letter t ps) → ∀ s : Service Builtin.State, ∃ failure,
        ((Service.validate Engine.builtin ((assigned letter v).apply t).1.text).run.run s).1 =
          .error failure := by
  intro hall
  obtain ⟨failure, hrefused⟩ := hall 's' "1)+(2" "s" (by decide +kernel)
    ⟨[], ⟨['s'], 0, false, false⟩, [], by decide +kernel, rfl, rfl⟩ idleService
  have haccepted := accepts (t := ((assigned 's' "1)+(2").apply "s").1.text) (n := "(1)+(2)")
    (by decide +kernel) (by decide +kernel) (by decide +kernel) (by decide +kernel)
  rw [haccepted] at hrefused
  cases hrefused

/-- Behind a name in brackets a value can become arguments. -/
example : ((Service.validate Engine.builtin ((assigned 'x' "1,2").apply "(f)x").1.text).run.run
    idleService).1 = .ok "(f)(1,2)" :=
  accepts (by decide +kernel) (by decide +kernel) (by decide +kernel) (by decide +kernel)

end Memory

end Reckoner
