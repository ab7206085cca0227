import Reckoner.Proofs.Grammar.Numerals
import Reckoner.Proofs.Grammar.Spacing

/-!
# Asterisks where none stands

A name or an opening round bracket behind the end of an operand multiplies it without a sign,
unless it is the bracket that opens the arguments of a name. The sign may be written there as
well: what stands around an asterisk is read as before, and a number stops in front of it.
-/

namespace Reckoner

namespace Token

/-- A name, or a bracket that multiplies without a sign. -/
def multiplies : Token → Bool
  | name _ | opening .round => true
  | _ => false

/-- The token ends an operand that the next one multiplies without a sign. -/
def juxtaposed (t : Token) (ts : List Token) : Bool :=
  t.endsOperand && Grammar.headIs multiplies ts && !(t.isSymbol && Grammar.headIs opensCall ts)

/-- The tokens with a sign for each multiplication that has none. -/
def starred : List Token → List Token
  | [] => []
  | t :: ts =>
    if juxtaposed t ts then t :: operation .multiply :: starred ts else t :: starred ts

/-- The text with an asterisk for each multiplication that has none, directly behind the end of
the operand. -/
def starredChars (s : List Char) : List Char :=
  match s with
  | [] => []
  | c :: rest =>
    if Text.isBlank c then c :: starredChars rest
    else
      match _h : scan c rest with
      | .error _ => c :: rest
      | .ok (t, behind) =>
        let spelling := rest.take (rest.length - behind.length)
        if juxtaposed t (scanAll behind).1 then c :: (spelling ++ '*' :: starredChars behind)
        else c :: (spelling ++ starredChars behind)
termination_by s.length
decreasing_by
  · exact Nat.lt_succ_self _
  · exact Nat.lt_succ_of_le (scan_length _h)
  · exact Nat.lt_succ_of_le (scan_length _h)

variable {c : Char} {s w r r' rest behind : List Char} {t : Token} {ts : List Token}

theorem starredChars_nil : starredChars [] = [] := by
  rw [starredChars.eq_def]

theorem starredChars_blank (h : Text.isBlank c = true) :
    starredChars (c :: rest) = c :: starredChars rest := by
  rw [starredChars.eq_def]
  exact if_pos h

/-- An asterisk is written directly behind the first token, or none. -/
theorem starredChars_cons (hb : Text.isBlank c = false)
    (h : scan c (w ++ behind) = .ok (t, behind)) : starredChars (c :: (w ++ behind)) =
      if juxtaposed t (scanAll behind).1 then c :: (w ++ '*' :: starredChars behind)
      else c :: (w ++ starredChars behind) := by
  rw [starredChars.eq_def]
  dsimp only
  rw [if_neg (by simp [hb])]
  split
  · rename_i he
    rw [h] at he
    cases he
  · rename_i he
    rw [h] at he
    cases he
    rw [List.length_append, Nat.add_sub_cancel, List.take_left]

/-- The first character is never an added one. -/
theorem head?_starredChars (s : List Char) : (starredChars s).head? = s.head? := by
  rw [starredChars.eq_def]
  split
  · rfl
  · split
    · rfl
    · split
      · rfl
      · dsimp only
        split <;> rfl

/-- A token takes the front of the text. -/
theorem exists_of_scan (h : scan c rest = .ok (t, behind)) : ∃ w, rest = w ++ behind := by
  cases scanned_of_scan h with
  | number hc _ =>
    obtain ⟨cs, -, hrest⟩ := Numeral.exists_chars hc rfl
    exact ⟨cs, hrest⟩
  | word _ => exact ⟨_, List.takeWhile_append_dropWhile.symm⟩
  | single _ _ _ => exact ⟨[], rfl⟩
  | pair _ hr _ => exact ⟨['='], hr⟩

/-- What follows a token may be exchanged where nothing comes up that goes on with the token. -/
theorem scan_behind (h : scan c (w ++ r) = .ok (t, r))
    (hstart : ∀ p : Char → Bool, p '*' = false → startsWith p r = false → startsWith p r' = false)
    (hmark : t.isNumber = true → marksPower r = false → marksPower r' = false) :
    scan c (w ++ r') = .ok (t, r') := by
  generalize hrest : w ++ r = rest at h
  cases scanned_of_scan h with
  | number hc hn =>
    cases hm : Numeral.span (c :: rest) with
    | mk m r =>
      rw [hm] at hn hrest hstart hmark
      obtain ⟨hs, hproper, hstops⟩ := Numeral.span_spec hm
      have hchars : c :: w = m.chars := by
        rw [← hrest, ← List.cons_append] at hs
        exact List.append_cancel_right hs
      have hstops' : m.Stops r' :=
        ⟨hstart _ rfl hstops.digit, fun hf hp => hstart _ rfl (hstops.point hf hp),
          fun hp => hmark (Numeral.isNumber_token hn) (hstops.mark hp)⟩
      rw [scan, if_pos hc, ← List.cons_append, hchars, Numeral.span_chars hproper hstops']
      simp only [hn, Except.map]
  | word hw =>
    have hword : w = rest.takeWhile isWord := by
      refine List.append_cancel_right (hrest.trans ?_)
      exact List.takeWhile_append_dropWhile.symm
    have hall (d : Char) (hd : d ∈ w) : isWord d = true := by
      rw [hword] at hd
      exact List.all_eq_true.mp List.all_takeWhile d hd
    have hstop := span_stop hall (hstart isWord rfl (startsWith_dropWhile isWord rest))
    rw [scan, if_neg (by simp [isWordStart_not_digit hw]), if_pos hw, hstop.1, hstop.2, hword]
  | single hw ht hp =>
    have hd : (c.isDigit || c == '.') = false := by
      unfold ofChar? at ht
      split at ht <;> first | decide | cases ht
    have hnil : w = [] := List.self_eq_append_left.mp hrest.symm
    rw [hnil, List.nil_append, scan_eq_scanSign hd hw]
    exact scanSign_single ht (hp.imp_right fun hp => hstart (· == '=') rfl hp)
  | pair hw hpair ht =>
    have hd : (c.isDigit || c == '.') = false := by
      unfold ofPair? at ht
      split at ht <;> first | decide | cases ht
    have hstroke : w = ['='] := by
      rw [hpair] at hrest
      exact List.append_cancel_right (hrest.trans (List.singleton_append).symm)
    rw [hstroke, List.singleton_append, scan_eq_scanSign hd hw]
    simp only [scanSign, ht]

/-- What follows a token may be exchanged for what starts alike or with an asterisk, but for a
letter that would mark the exponent of a number. -/
theorem scan_exchange (h : scan c (w ++ r) = .ok (t, r))
    (hr : r'.head? = r.head? ∨ r'.head? = some '*')
    (hE : t.isNumber = true → startsWith (· == 'E') r' = false) :
    scan c (w ++ r') = .ok (t, r') := by
  refine scan_behind h (fun p hp h => ?_) fun ht _ => by rw [marksPower, hE ht, Bool.false_and]
  rcases hr with hr | hr
  · rwa [startsWith, hr]
  · rw [startsWith, hr, Option.any_some, hp]

/-- A word with this first letter is a name, so it multiplies a number in front of it. -/
theorem juxtaposed_exponent (ht : t.isNumber = true)
    (h : startsWith (· == 'E') behind = true) : juxtaposed t (scanAll behind).1 = true := by
  have hname : Grammar.headIs multiplies (scanAll behind).1 = true := by
    cases behind with
    | nil => cases h
    | cons c rest =>
      have hc : c = 'E' := by simpa using h
      subst hc
      have hword (d : Char) (hd : d ∈ rest.takeWhile isWord) : isWord d = true :=
        List.all_eq_true.mp List.all_takeWhile d hd
      have hscan := scanAll_word (c := 'E') (by decide) hword (startsWith_dropWhile isWord rest)
      rw [List.takeWhile_append_dropWhile] at hscan
      rw [hscan, Grammar.headIs_cons, ofWord, if_neg, if_neg]
      · rfl
      all_goals
        intro he
        have hhead := congrArg (fun s => s.toList.head?) he
        simp only [String.toList_ofList, List.head?_cons] at hhead
        revert hhead
        decide
  rw [juxtaposed, hname]
  cases t <;> first | rfl | cases ht

/-- With the asterisks the text has the same tokens and the signs between them. -/
theorem scanAll_starredChars (h : scanAll s = (ts, none)) :
    scanAll (starredChars s) = (starred ts, none) := by
  fun_induction scanAll s generalizing ts with
  | case1 =>
    cases h
    rw [starredChars_nil, scanAll_nil, starred]
  | case2 c rest hb ih => rw [starredChars_blank hb, scanAll_blank hb, ih h]
  | case3 => cases h
  | case4 c rest hb t behind hs ih =>
    have hb : Text.isBlank c = false := by simpa using hb
    obtain ⟨rfl, hnone⟩ := Prod.mk.inj h
    have hbehind := ih (Prod.ext rfl hnone)
    obtain ⟨w, rfl⟩ := exists_of_scan hs
    rw [starredChars_cons hb hs, starred]
    split
    · have hstar : scanAll ('*' :: starredChars behind) =
          (operation .multiply :: (scanAll (starredChars behind)).1,
            (scanAll (starredChars behind)).2) := scanAll_sign rfl (.inl rfl)
      have hscan : scan c (w ++ '*' :: starredChars behind) =
          .ok (t, '*' :: starredChars behind) := scan_exchange hs (.inr rfl) fun _ => rfl
      rw [scanAll_cons hb hscan, hstar, hbehind]
    · rename_i hj
      have hscan : scan c (w ++ starredChars behind) = .ok (t, starredChars behind) := by
        refine scan_exchange hs (.inl (head?_starredChars behind)) fun ht => ?_
        rw [startsWith, head?_starredChars]
        exact Bool.eq_false_iff.mpr fun hletter => hj (juxtaposed_exponent ht hletter)
      rw [scanAll_cons hb hscan, hbehind]

end Token

end Reckoner
