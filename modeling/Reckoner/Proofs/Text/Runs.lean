import Reckoner.Proofs.Grammar.Numerals
import Reckoner.Proofs.Validation.Words

/-!
# Identifiers are runs of word characters

A run is a part of a text that consists of word characters and has none on either side. The
identifiers of a text are its runs, one after another, less those that are numbers: each stands in
its run behind the leading digits, and its offsets count the bytes before it and before its end.
-/

namespace Reckoner.Text

open Token (isWord isWordStart startsWith)

/-! ## Bytes -/

theorem byteCount_pos {s : List Char} (h : s ≠ []) : 0 < byteCount s := by
  cases s with
  | nil => exact absurd rfl h
  | cons c s => exact Nat.add_pos_left c.utf8Size_pos _

/-- The bytes of a text are counted. -/
theorem size_utf8Encode (s : List Char) : s.utf8Encode.size = byteCount s := by
  induction s with
  | nil => rfl
  | cons c s ih =>
    rw [List.utf8Encode_cons, ByteArray.size_append, ih, List.utf8Encode_singleton,
      List.size_toByteArray, String.length_utf8EncodeChar, byteCount_cons]

/-- The bytes of a part stand behind those of what is before it. -/
theorem extract_utf8Encode (s t u : List Char) :
    (s ++ t ++ u).utf8Encode.extract (byteCount s) (byteCount s + byteCount t) = t.utf8Encode := by
  rw [List.append_assoc, List.utf8Encode_append, List.utf8Encode_append, ← size_utf8Encode,
    ← size_utf8Encode]
  have h := ByteArray.extract_append_size_add (a := s.utf8Encode)
    (b := t.utf8Encode ++ u.utf8Encode) (i := 0) (j := t.utf8Encode.size)
  rw [Nat.add_zero] at h
  rw [h, ByteArray.extract_append_eq_left rfl]

/-! ## Runs -/

/-- A part of a text, with what stands around it. -/
structure Stretch where
  /-- What stands before. -/
  before : List Char
  /-- The part. -/
  chars : List Char
  /-- What stands behind. -/
  behind : List Char

namespace Stretch

/-- A part of the text that consists of word characters, next to none. -/
structure IsRun (s : List Char) (r : Stretch) : Prop where
  /-- It is a part of the text. -/
  whole : r.before ++ r.chars ++ r.behind = s
  /-- It has characters. -/
  nonempty : r.chars ≠ []
  /-- They are word characters. -/
  words : ∀ c ∈ r.chars, isWord c = true
  /-- No word character stands directly before it. -/
  before : r.before.getLast?.any isWord = false
  /-- No word character stands directly behind it. -/
  behind : r.behind.head?.any isWord = false

/-- There is a letter or an underscore; otherwise the part is a number. -/
def isNamed (r : Stretch) : Bool := r.chars.any isWordStart

/-- The digits that lead. -/
def digits (r : Stretch) : List Char := r.chars.takeWhile Char.isDigit

/-- What stands behind the leading digits. -/
def name (r : Stretch) : List Char := r.chars.dropWhile Char.isDigit

/-- The part behind the leading digits, and what stands next to it. -/
def identifier (r : Stretch) : Identifier where
  name := r.name
  start := byteCount (r.before ++ r.digits)
  isCall := r.behind.head?.any fun c => c == '(' || c == '['
  followsNumber := (r.before ++ r.digits).getLast?.any fun c => c.isDigit || c == '.'

end Stretch

/-- The runs of a text, given what precedes it. -/
def runsFrom (before s : List Char) : List Stretch :=
  match s with
  | [] => []
  | c :: rest =>
    if isWord c then
      let chars := c :: rest.takeWhile isWord
      let behind := rest.dropWhile isWord
      ⟨before, chars, behind⟩ :: runsFrom (before ++ chars) behind
    else runsFrom (before ++ [c]) rest
termination_by s.length
decreasing_by
  · exact Nat.lt_succ_of_le (List.dropWhile_sublist _).length_le
  · exact Nat.lt_succ_self _

/-- The runs of a text, in order. -/
def runs (s : List Char) : List Stretch := runsFrom [] s

namespace Stretch.IsRun

variable {before s t : List Char} {r : Stretch}

/-- A run behind some part of the text is in the rest. -/
theorem rest_eq (h : r.IsRun (before ++ s)) (ht : before ++ t = r.before) :
    t ++ (r.chars ++ r.behind) = s := by
  have hwhole := h.whole
  rw [← ht, List.append_assoc, List.append_assoc] at hwhole
  exact List.append_cancel_left hwhole

/-- A run that starts where the text goes on takes all word characters there. -/
theorem eq_span (h : r.IsRun s) (ht : r.chars ++ r.behind = t) :
    r.chars = t.takeWhile isWord ∧ r.behind = t.dropWhile isWord := by
  subst ht
  obtain ⟨htake, hdrop⟩ := Token.span_stop h.words h.behind
  exact ⟨htake.symm, hdrop.symm⟩

/-- Where no word character comes next, no run starts. -/
theorem ne_nil (h : r.IsRun (before ++ s)) (ht : before ++ t = r.before)
    (hs : startsWith isWord s = false) : t ≠ [] := by
  rintro rfl
  have hchars := (h.eq_span (h.rest_eq ht)).1
  cases s with
  | nil => exact h.nonempty hchars
  | cons c s =>
    rw [Token.startsWith_cons] at hs
    rw [List.takeWhile_cons_of_neg (Bool.eq_false_iff.mp hs)] at hchars
    exact h.nonempty hchars

/-- What stands before a later run covers the word characters that come next. -/
theorem takeWhile_prefix (h : r.IsRun (before ++ s)) (ht : before ++ t = r.before) (hne : t ≠ []) :
    s.takeWhile isWord <+: t := by
  have hts : t <+: s := ⟨_, h.rest_eq ht⟩
  refine (List.prefix_or_prefix_of_prefix (List.takeWhile_prefix isWord) hts).resolve_right
    fun hp => ?_
  -- otherwise the last character before the run is one of them
  have hword : isWord (t.getLast hne) = true :=
    List.all_eq_true.mp List.all_takeWhile _ (hp.subset (List.getLast_mem hne))
  have hlast := h.before
  rw [← ht, List.getLast?_append, List.getLast?_eq_some_getLast hne, Option.some_or,
    Option.any_some, hword] at hlast
  cases hlast

end Stretch.IsRun

/-- The word characters that come next are a run, unless one stands before them. -/
theorem isRun_span {before : List Char} {c : Char} (rest : List Char) (hc : isWord c = true)
    (hbefore : before.getLast?.any isWord = false) :
    Stretch.IsRun (before ++ c :: rest)
      ⟨before, c :: rest.takeWhile isWord, rest.dropWhile isWord⟩ where
  whole := by rw [List.append_assoc, List.cons_append, List.takeWhile_append_dropWhile]
  nonempty := List.cons_ne_nil _ _
  words := List.forall_mem_cons.mpr ⟨hc, List.all_eq_true.mp List.all_takeWhile⟩
  before := hbefore
  behind := Token.startsWith_dropWhile isWord rest

/-- What is found are the runs of the text that stand behind what precedes. -/
theorem mem_runsFrom {before s : List Char} {r : Stretch}
    (hbefore : startsWith isWord s = true → before.getLast?.any isWord = false) :
    r ∈ runsFrom before s ↔ r.IsRun (before ++ s) ∧ before <+: r.before := by
  fun_induction runsFrom before s with
  | case1 before =>
    refine ⟨fun h => absurd h List.not_mem_nil, fun ⟨h, t, ht⟩ => absurd (h.rest_eq ht) ?_⟩
    simp [h.nonempty]
  | case2 before c rest hc chars behind ih =>
    have hspan : chars ++ behind = c :: rest := by
      rw [List.cons_append, List.takeWhile_append_dropWhile]
    have hbehind : startsWith isWord behind = false := Token.startsWith_dropWhile isWord rest
    rw [List.mem_cons, ih fun hw => absurd hw (by simp [hbehind]), List.append_assoc, hspan]
    constructor
    · rintro (rfl | ⟨h, hp⟩)
      · exact ⟨isRun_span rest hc (hbefore hc), List.prefix_refl _⟩
      · exact ⟨h, (List.prefix_append _ _).trans hp⟩
    · rintro ⟨h, t, ht⟩
      by_cases hne : t = []
      · subst hne
        obtain ⟨hchars, hr⟩ := h.eq_span (h.rest_eq ht)
        rw [List.takeWhile_cons_of_pos hc] at hchars
        rw [List.dropWhile_cons_of_pos hc] at hr
        rw [List.append_nil] at ht
        cases r
        exact .inl (by simp only [chars, behind, ht, ← hchars, ← hr])
      · have hp := h.takeWhile_prefix ht hne
        rw [List.takeWhile_cons_of_pos hc] at hp
        rw [← ht]
        exact .inr ⟨h, (List.prefix_append_right_inj _).mpr hp⟩
  | case3 before c rest hc ih =>
    have hc : isWord c = false := Bool.eq_false_iff.mpr hc
    rw [ih fun _ => by rw [List.getLast?_concat, Option.any_some, hc], List.append_assoc,
      List.singleton_append]
    refine and_congr_right fun h => ⟨fun hp => (List.prefix_append _ _).trans hp, ?_⟩
    rintro ⟨t, ht⟩
    have hrest := h.rest_eq ht
    rw [← ht, List.prefix_append_right_inj]
    cases t with
    | nil => exact absurd rfl (h.ne_nil ht hc)
    | cons d t =>
      cases hrest
      exact List.cons_prefix_cons.mpr ⟨rfl, List.nil_prefix⟩

/-- What is found are the runs. -/
theorem mem_runs {s : List Char} {r : Stretch} : r ∈ runs s ↔ r.IsRun s := by
  rw [runs, mem_runsFrom fun _ => rfl]
  exact and_iff_left List.nil_prefix

/-- Each run ends before the next one starts, and something stands between them. -/
theorem pairwise_runsFrom (before s : List Char) :
    (runsFrom before s).Pairwise fun q r => ∃ t, t ≠ [] ∧ q.before ++ q.chars ++ t = r.before := by
  fun_induction runsFrom before s with
  | case1 => exact .nil
  | case2 before c rest hc chars behind ih =>
    refine .cons (fun r hr => ?_) ih
    have hbehind : startsWith isWord behind = false := Token.startsWith_dropWhile isWord rest
    obtain ⟨h, t, ht⟩ := (mem_runsFrom fun hw => absurd hw (by simp [hbehind])).mp hr
    exact ⟨t, h.ne_nil ht hbehind, ht⟩
  | case3 _ _ _ _ ih => exact ih

/-! ## Identifiers -/

/-- The identifier of a piece. -/
def Piece.identifier? : Piece → Option Identifier
  | word w => some w
  | other _ => none

theorem identifiers_eq_filterMap (s : List Char) :
    identifiers s = (piecesOf s).filterMap Piece.identifier? := by
  rw [identifiers]
  congr 1

/-- Word characters are those that words start with, and digits. -/
theorem isWordStart_of_isWord {c : Char} (h : isWord c = true) (hd : c.isDigit = false) :
    isWordStart c = true := by
  rwa [isWord, Char.isAlphanum, hd, Bool.or_false] at h

theorem isWordStart_of_not_isWord {c : Char} (h : isWord c = false) : isWordStart c = false :=
  Bool.eq_false_iff.mpr fun hc => by rw [Token.isWord_of_isWordStart hc] at h; cases h

/-- Digits are no identifiers, but the next one follows a number. -/
theorem filterMap_pieces_digits {ds : List Char} (h : ∀ d ∈ ds, d.isDigit = true)
    (before r : List Char) :
    (pieces (before.getLast?.any continuesNumber) (byteCount before) (ds ++ r)).filterMap
        Piece.identifier? =
      (pieces ((before ++ ds).getLast?.any continuesNumber) (byteCount (before ++ ds)) r).filterMap
        Piece.identifier? := by
  induction ds generalizing before with
  | nil => rw [List.nil_append, List.append_nil]
  | cons d ds ih =>
    obtain ⟨hd, hds⟩ := List.forall_mem_cons.mp h
    have hstep := ih hds (before ++ [d])
    rw [List.getLast?_concat, Option.any_some, List.append_assoc, List.singleton_append,
      byteCount_append] at hstep
    rw [List.cons_append, pieces_other (isWordStart_of_isDigit hd)]
    exact hstep

/-- What precedes a text does not matter where no word character comes next. -/
theorem filterMap_pieces_congr {s : List Char} (h : startsWith isWord s = false) (f f' : Bool)
    (n : Nat) :
    (pieces f n s).filterMap Piece.identifier? = (pieces f' n s).filterMap Piece.identifier? := by
  cases s with
  | nil => rw [pieces, pieces]
  | cons c rest =>
    have hc := isWordStart_of_not_isWord h
    rw [pieces_other hc, pieces_other hc]

namespace Stretch

variable {s : List Char} {r : Stretch}

/-- The leading digits and the name make up the run. -/
theorem digits_append_name (r : Stretch) : r.digits ++ r.name = r.chars :=
  List.takeWhile_append_dropWhile

/-- The leading digits stop at a letter or an underscore. -/
theorem IsRun.isWordStart_of_name (h : r.IsRun s) {c : Char} {rest : List Char}
    (hc : r.name = c :: rest) : c ∈ r.chars ∧ isWordStart c = true := by
  have hmem : c ∈ r.chars := by
    rw [← r.digits_append_name, hc]
    exact List.mem_append_right _ List.mem_cons_self
  have hdigit : startsWith Char.isDigit r.name = false := Token.startsWith_dropWhile _ _
  rw [hc] at hdigit
  exact ⟨hmem, isWordStart_of_isWord (h.words c hmem) hdigit⟩

/-- A run is a number exactly if nothing stands behind its leading digits. -/
theorem IsRun.isNamed_iff (h : r.IsRun s) : r.isNamed = true ↔ r.name ≠ [] := by
  rw [isNamed, List.any_eq_true]
  constructor
  · rintro ⟨c, hc, hstart⟩ hname
    rw [← r.digits_append_name, hname, List.append_nil] at hc
    have hdigit : c.isDigit = true := List.all_eq_true.mp List.all_takeWhile c hc
    rw [isWordStart_of_isDigit hdigit] at hstart
    cases hstart
  · intro hname
    obtain ⟨c, rest, hc⟩ := List.exists_cons_of_ne_nil hname
    exact ⟨c, h.isWordStart_of_name hc⟩

/-- The pieces of a run have one identifier, or none if the run is a number. -/
theorem IsRun.filterMap_pieces (h : r.IsRun s) :
    (pieces (r.before.getLast?.any continuesNumber) (byteCount r.before)
        (r.chars ++ r.behind)).filterMap Piece.identifier? =
      (if r.isNamed then [r.identifier] else []) ++
        (pieces false (byteCount (r.before ++ r.chars)) r.behind).filterMap Piece.identifier? := by
  have hdigits : ∀ d ∈ r.digits, d.isDigit = true := List.all_eq_true.mp List.all_takeWhile
  rw [← r.digits_append_name, List.append_assoc, filterMap_pieces_digits hdigits]
  cases hname : r.name with
  | nil =>
    have hnumber : ¬ r.isNamed = true := fun hn => h.isNamed_iff.mp hn hname
    rw [if_neg hnumber, List.append_nil, List.nil_append]
    exact filterMap_pieces_congr h.behind _ _ _
  | cons c rest =>
    have hnamed : r.isNamed = true := h.isNamed_iff.mpr (by simp [hname])
    have hrest : ∀ d ∈ rest, isWord d = true := fun d hd => h.words d (by
      rw [← r.digits_append_name, hname]
      exact List.mem_append_right _ (List.mem_cons_of_mem _ hd))
    obtain ⟨htake, hdrop⟩ := Token.span_stop hrest h.behind
    have hidentifier : r.identifier = ⟨c :: rest, byteCount (r.before ++ r.digits),
        opensArguments r.behind, (r.before ++ r.digits).getLast?.any continuesNumber⟩ := by
      rw [identifier, hname]
      cases r.behind <;> rfl
    rw [if_pos hnamed, List.cons_append, pieces_word (h.isWordStart_of_name hname).2, htake, hdrop,
      hidentifier, ← List.append_assoc, byteCount_append _ (c :: rest)]
    rfl

end Stretch

/-- The identifiers are those of the runs that are no numbers. -/
theorem filterMap_pieces (before s : List Char) : ∀ f : Bool,
    (startsWith isWord s = true →
      before.getLast?.any isWord = false ∧ f = before.getLast?.any continuesNumber) →
    (pieces f (byteCount before) s).filterMap Piece.identifier? =
      ((runsFrom before s).filter Stretch.isNamed).map Stretch.identifier := by
  fun_induction runsFrom before s with
  | case1 before =>
    intro f _
    rw [pieces]
    rfl
  | case2 before c rest hc chars behind ih =>
    intro f hbefore
    obtain ⟨hlast, rfl⟩ := hbefore hc
    have hrun := isRun_span rest hc hlast
    have hstep := hrun.filterMap_pieces
    have hbehind : startsWith isWord behind = false := hrun.behind
    rw [ih false fun hw => absurd hw (by simp [hbehind]), List.cons_append,
      List.takeWhile_append_dropWhile] at hstep
    rw [hstep, List.filter_cons]
    cases Stretch.isNamed _ <;> rfl
  | case3 before c rest hc ih =>
    intro f _
    have hc : isWord c = false := Bool.eq_false_iff.mpr hc
    have hstep := ih (continuesNumber c) fun _ => by
      rw [List.getLast?_concat]
      exact ⟨hc, rfl⟩
    rw [byteCount_append] at hstep
    rw [pieces_other (isWordStart_of_not_isWord hc)]
    exact hstep

namespace Stretch

variable {s : List Char} {r q : Stretch}

/-- An identifier ends where its run does. -/
theorem stop_identifier (r : Stretch) : r.identifier.stop = byteCount (r.before ++ r.chars) := by
  rw [← r.digits_append_name, ← List.append_assoc, byteCount_append _ r.name]
  rfl

/-- An identifier is not empty, and its bytes are those of the text from its start to its end. -/
theorem IsRun.identifier_bounds (h : r.IsRun s) (hnamed : r.isNamed = true) :
    r.identifier.start < r.identifier.stop ∧
      (String.ofList s).toByteArray.extract r.identifier.start r.identifier.stop =
        r.identifier.text.toByteArray := by
  constructor
  · exact Nat.lt_add_of_pos_right (byteCount_pos (h.isNamed_iff.mp hnamed))
  · have hextract := extract_utf8Encode (r.before ++ r.digits) r.name r.behind
    rw [List.append_assoc r.before, r.digits_append_name, h.whole] at hextract
    rw [String.toByteArray_ofList, Identifier.text, String.toByteArray_ofList]
    exact hextract

/-- The identifiers of two runs are apart. -/
theorem stop_lt_start {t : List Char} (hne : t ≠ []) (ht : q.before ++ q.chars ++ t = r.before) :
    q.identifier.stop < r.identifier.start := by
  have hpos := byteCount_pos hne
  have hstart : r.identifier.start = byteCount (r.before ++ r.digits) := rfl
  rw [q.stop_identifier, hstart, ← ht, byteCount_append _ r.digits, byteCount_append _ t]
  omega

end Stretch

/-- The identifiers of a text are its runs that have a letter or an underscore, in order and one
for each, without the digits that lead. Their bytes are those of the text between their offsets, and
each ends before the next one starts. -/
theorem identifiers_eq_runs (s : List Char) :
    (∀ r, r ∈ runs s ↔ r.IsRun s) ∧
      ((runs s).Pairwise fun q r => q.before ++ q.chars <+: r.before) ∧
      identifiers s = ((runs s).filter Stretch.isNamed).map Stretch.identifier ∧
      (∀ w ∈ identifiers s, w.start < w.stop ∧
        (String.ofList s).toByteArray.extract w.start w.stop = w.text.toByteArray) ∧
      (identifiers s).Pairwise fun v w => v.stop < w.start := by
  have hruns : identifiers s = ((runs s).filter Stretch.isNamed).map Stretch.identifier := by
    rw [identifiers_eq_filterMap]
    exact filterMap_pieces [] s false fun _ => ⟨rfl, rfl⟩
  have hordered := pairwise_runsFrom [] s
  refine ⟨fun r => mem_runs, ?_, hruns, fun w hw => ?_, ?_⟩
  · exact hordered.imp fun ⟨t, _, ht⟩ => ⟨t, ht⟩
  · rw [hruns] at hw
    obtain ⟨r, hr, rfl⟩ := List.mem_map.mp hw
    obtain ⟨hr, hnamed⟩ := List.mem_filter.mp hr
    exact (mem_runs.mp hr).identifier_bounds hnamed
  · rw [hruns, List.pairwise_map]
    exact (hordered.sublist List.filter_sublist).imp fun ⟨_, hne, ht⟩ =>
      Stretch.stop_lt_start hne ht

/-- One run starts with digits, one is a number, and characters of two bytes stand between. -/
theorem identifiers_eq_runs_mixed :
    (runs "é12ab(.7π.x".toList).map Stretch.chars = ["12ab".toList, ['7'], ['x']] ∧
      identifiers "é12ab(.7π.x".toList =
        [⟨['a', 'b'], 4, true, true⟩, ⟨['x'], 12, false, true⟩] ∧
      4 < 6 ∧ (String.ofList "é12ab(.7π.x".toList).toByteArray.extract 4 6 =
        (String.ofList ['a', 'b']).toByteArray := by
  have hidentifiers : identifiers "é12ab(.7π.x".toList =
      [⟨['a', 'b'], 4, true, true⟩, ⟨['x'], 12, false, true⟩] := by decide +kernel
  obtain ⟨-, -, -, hbounds, -⟩ := identifiers_eq_runs "é12ab(.7π.x".toList
  refine ⟨by decide +kernel, hidentifiers, hbounds ⟨['a', 'b'], 4, true, true⟩ ?_⟩
  rw [hidentifiers]
  exact List.mem_cons_self

end Reckoner.Text
