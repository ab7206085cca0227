import Mathlib.Data.List.Forall2
import Reckoner.Proofs.Memory.Brackets
import Reckoner.Proofs.Memory.Respelling
import Reckoner.Proofs.Memory.Unbound

/-!
# Constants in either case

A memory without assignments writes the engine's names of constants, whatever case they come in,
and brackets them behind a number if they are spelled differently. Texts that differ in the case of
constants are therefore read as the same tree, where the same numbers are read off both: brackets
take one level more, and a capital letter behind a number can be that of an exponent.
-/

namespace Reckoner

open Text Token Validation Vocabulary

/-! ## Names of constants -/

namespace Vocabulary

variable {x y : String} {k : Constant}

private theorem isAlpha_of_toLower {c : Char} (h : c.toLower.isAlpha = true) :
    c.isAlpha = true := by
  unfold Char.toLower at h
  split at h
  · rename_i hupper
    exact Bool.or_eq_true_iff.mpr (.inl (decide_eq_true hupper))
  · exact h

/-- The characters of a name in small letters. -/
def smallLetters (x : String) : List Char := x.toList.map Char.toLower

/-- Small letters are made one by one. -/
theorem toList_toLower (x : String) : x.toLower.toList = smallLetters x := String.toList_map

/-- Names are the same if they are so in small letters. -/
theorem sameName_eq (x y : String) : sameName x y = (smallLetters x == smallLetters y) := by
  rw [sameName, Bool.eq_iff_iff, beq_iff_eq, beq_iff_eq, ← toList_toLower, ← toList_toLower,
    String.toList_inj]

/-- The constant is found by its small letters. -/
theorem constant?_eq (x : String) :
    constant? x = constants.find? fun k => smallLetters k.name == smallLetters x := by
  simp only [constant?, sameName_eq]

/-- Constants that a name stands for do not depend on its case. -/
theorem constant?_congr (h : sameName x y = true) : constant? x = constant? y := by
  rw [sameName, beq_iff_eq] at h
  simp only [constant?, sameName, h]

/-- The constant is in the table, under a name that fits. -/
theorem constant?_eq_some (h : constant? x = some k) :
    k ∈ constants ∧ sameName k.name x = true := by
  rw [constant?, List.find?_eq_some_iff_append] at h
  obtain ⟨hsame, before, behind, hsplit, -⟩ := h
  rw [hsplit]
  exact ⟨List.mem_append_right _ List.mem_cons_self, hsame⟩

/-- The engine's name of a constant is one of letters. -/
theorem isLetters_engineName (hk : k ∈ constants) : isLetters k.engineName = true := by
  have hall : constants.all (fun k => isLetters k.engineName) = true := by decide +kernel
  exact List.all_eq_true.mp hall k hk

/-- A name of letters that is no truth value in any case. -/
theorem isLetters_of_alpha (hne : x.toList ≠ []) (hx : ∀ c ∈ x.toList, c.isAlpha = true)
    (htrue : x ≠ "True") (hfalse : x ≠ "False") : isLetters x = true := by
  rw [isLetters, Bool.and_eq_true, List.all_eq_true]
  refine ⟨?_, hx⟩
  unfold isName
  split
  · contradiction
  · rename_i c cs hcs
    rw [hcs] at hx
    have hstart : isWordStart c = true := by
      rw [isWordStart, hx c List.mem_cons_self, Bool.true_or]
    have hword : cs.all isWord = true := List.all_eq_true.mpr fun d hd =>
      isWord_of_isAlpha (hx d (List.mem_cons_of_mem c hd))
    rw [hstart, hword, bne_iff_ne.mpr htrue, bne_iff_ne.mpr hfalse]
    rfl

/-- A name that stands for a constant is one of letters. -/
theorem isLetters_of_constant? (h : constant? x = some k) : isLetters x = true := by
  obtain ⟨hk, hsame⟩ := constant?_eq_some h
  rw [sameName_eq, beq_iff_eq] at hsame
  have hnames : constants.all (fun k => (smallLetters k.name).all Char.isAlpha &&
      !(smallLetters k.name).isEmpty && smallLetters k.name != smallLetters "True" &&
      smallLetters k.name != smallLetters "False") = true := by decide +kernel
  have hname := List.all_eq_true.mp hnames k hk
  simp only [Bool.and_eq_true, bne_iff_ne, Bool.not_eq_true', List.isEmpty_eq_false_iff] at hname
  obtain ⟨⟨⟨halpha, hne⟩, htrue⟩, hfalse⟩ := hname
  rw [hsame] at halpha hne htrue hfalse
  refine isLetters_of_alpha (fun hnil => hne (by rw [smallLetters, hnil]; rfl)) (fun c hc => ?_)
    (fun hx => htrue (by rw [hx])) (fun hx => hfalse (by rw [hx]))
  exact isAlpha_of_toLower (List.all_eq_true.mp halpha _ (List.mem_map_of_mem hc))

end Vocabulary

/-- The same word in another case, if it is a constant that is not called, or the same piece. -/
def Text.Piece.Recased : Piece → Piece → Prop
  | .word w, .word w' => w'.isCall = w.isCall ∧ (w'.name = w.name ∨
    w.isCall = false ∧ isConstant w.text = true ∧ sameName w.text w'.text = true)
  | .other c, .other c' => c' = c
  | _, _ => False

instance (w w' : Identifier) : Decidable (Piece.Recased (.word w) (.word w')) :=
  decidable_of_iff (w'.isCall = w.isCall ∧ (w'.name = w.name ∨ w.isCall = false ∧
      (constants.find? fun k => smallLetters k.name == smallLetters w.text).isSome = true ∧
      (smallLetters w.text == smallLetters w'.text) = true)) (by
    rw [Piece.Recased, isConstant, constant?_eq, sameName_eq])

instance (p p' : Piece) : Decidable (p.Recased p') :=
  match p, p' with
  | .word _, .word _ => inferInstance
  | .other c, .other c' => inferInstanceAs (Decidable (c' = c))
  | .word _, .other _ => isFalse id
  | .other _, .word _ => isFalse id

deriving instance DecidableEq for Token.Numeral

/-! ## What is written for a word -/

namespace Memory

variable {x : String} {k : Constant}

/-- What stands in a memory without assignments is a constant. -/
theorem constant?_of_binding? {value : List Char} (h : initial.binding? x = some value) :
    ∃ k, constant? x = some k ∧ k.engineName ≠ x ∧ value = k.engineName.toList := by
  have hnames : nativeNames.all (fun n =>
      (constant? n.1).any fun k => k.engineName == n.2 && n.2 != n.1) = true := by
    simp only [constant?_eq]
    decide +kernel
  obtain ⟨before, behind, hsplit, -⟩ := List.lookup_eq_some_iff.mp h
  have hmem : (x, value) ∈ initial.bindings := by
    rw [hsplit]
    exact List.mem_append_right _ List.mem_cons_self
  obtain ⟨⟨name, native⟩, hn, hpair⟩ := List.mem_map.mp hmem
  cases hpair
  obtain ⟨k, hk, hnative⟩ := Option.any_eq_true _ _ |>.mp (List.all_eq_true.mp hnames _ hn)
  simp only [Bool.and_eq_true, beq_iff_eq, bne_iff_ne] at hnative
  obtain ⟨rfl, hne⟩ := hnative
  exact ⟨k, hk, hne, rfl⟩

/-- Without assignments a name stands for the engine's name of a constant, if that is another. -/
theorem resolve?_initial (x : String) : initial.resolve? x =
    (constant? x).bind fun k => if k.engineName = x then none else some k.engineName.toList := by
  rw [resolve?]
  split
  · rename_i value hvalue
    obtain ⟨k, hk, hne, rfl⟩ := constant?_of_binding? hvalue
    rw [hk, Option.bind_some, if_neg hne]
  · cases constant? x <;> rfl

/-- The engine's name of a constant needs no brackets of its own. -/
theorem isAtomic_engineName (hk : k ∈ constants) : isAtomic k.engineName.toList = true := by
  have hall : constants.all (fun k => isAtomic k.engineName.toList) = true := by decide +kernel
  exact List.all_eq_true.mp hall k hk

/-- What is written for the engine's name of a constant. -/
def writtenName (k : Constant) (followsNumber : Bool) : List Char :=
  if followsNumber then '(' :: (k.engineName.toList ++ [')']) else k.engineName.toList

/-- Without assignments a word is kept, or the engine's name of a constant is written that is
spelled differently. -/
theorem replacement_initial (w : Identifier) :
    initial.replacement w = none ∧
        (w.isCall = false → ∀ k, constant? w.text = some k → k.engineName = w.text) ∨
      ∃ k, constant? w.text = some k ∧ w.isCall = false ∧ k.engineName ≠ w.text ∧
        initial.replacement w = some (writtenName k w.followsNumber) := by
  rw [replacement, resolve?_initial]
  split
  · rename_i hcall
    exact .inl ⟨rfl, fun h => absurd hcall (by rw [h]; exact Bool.false_ne_true)⟩
  · rename_i hcall
    cases hk : constant? w.text with
    | none => exact .inl ⟨rfl, fun _ k h => by cases h⟩
    | some k =>
      rw [Option.bind_some]
      split
      · rename_i hname
        refine .inl ⟨rfl, fun _ k' h => ?_⟩
        cases h
        exact hname
      · rename_i hname
        refine .inr ⟨k, rfl, Bool.eq_false_iff.mpr hcall, hname, ?_⟩
        rw [Option.map_some, isAtomic_engineName (constant?_eq_some hk).1, writtenName]
        cases w.followsNumber <;> rfl

/-- The engine's name of the capital letter of exponents is that letter. -/
theorem engineName_of_exponent (h : constant? "E" = some k) : k.engineName = "E" := by
  have hcapital : (constant? "E").map Constant.engineName = some "E" := by
    rw [constant?_eq]
    decide +kernel
  rw [h] at hcapital
  exact Option.some.inj hcapital

/-- A text with the engine's names for its constants is the text but for those names. -/
theorem respelled_initial (f : Bool) (n : Nat) (s : List Char) :
    Respelled (fun _ => "") 0 True f (replaceFrom initial.replacement f n s) s := by
  induction s using wordsInduction generalizing f n with
  | nil =>
    rw [replaceFrom_nil]
    exact .nil
  | other c rest hc ih =>
    rw [replaceFrom_other f n _ hc]
    exact .other hc (ih _ _)
  | word c rest hc ih =>
    have hcs : ∀ d ∈ rest.takeWhile isWord, isWord d = true :=
      List.all_eq_true.mp List.all_takeWhile
    obtain ⟨hword, hopens⟩ := startsWith_replaceFrom initial.replacement false
      (n + byteCount (c :: rest.takeWhile isWord)) rest
    have hbehind := ih false (n + byteCount (c :: rest.takeWhile isWord))
    rw [replaceFrom_word f n _ hc]
    generalize hw : (⟨c :: rest.takeWhile isWord, n, opensArguments (rest.dropWhile isWord), f⟩ :
      Identifier) = w
    rcases replacement_initial w with ⟨hnone, -⟩ | ⟨k, hk, hcall, hne, hsome⟩
    · have hkept := hbehind.word (b := f) hc hcs hword
      rw [List.takeWhile_append_dropWhile] at hkept
      rw [hnone]
      exact hkept
    · have hnative := isLetters_engineName (constant?_eq_some hk).1
      have hspelled := isLetters_of_constant? hk
      have hchars : c :: rest = w.text.toList ++ rest.dropWhile isWord := by
        rw [Identifier.text, String.toList_ofList, ← hw, List.cons_append,
          List.takeWhile_append_dropWhile]
      have hE : w.text ≠ "E" := by
        intro hE
        rw [hE] at hk hne
        exact hne (engineName_of_exponent hk)
      rw [hsome, Option.getD_some, writtenName, hchars]
      subst hw
      cases f with
      | false => exact .renamed hnative hspelled rfl hword hbehind
      | true =>
        rw [if_pos rfl, List.cons_append, List.append_assoc]
        exact .removed hnative hspelled rfl (fun _ => hE) hword (hopens.trans hcall) hbehind

/-! ## Texts in another case -/

section

variable {w w' : Identifier} {r r' : List Char} {b : Bool}

/-- A constant is found in any case. -/
theorem constant?_of_recased (h : Piece.Recased (.word w) (.word w')) :
    constant? w'.text = constant? w.text := by
  rcases h.2 with hname | ⟨-, -, hsame⟩
  · rw [Identifier.text, Identifier.text, hname]
  · exact (constant?_congr hsame).symm

/-- Two words with the same text have the same characters. -/
theorem name_eq_of_text (h : w'.text = w.text) : w'.name = w.name := by
  rw [Identifier.text, Identifier.text] at h
  exact String.ofList_injective h

/-- What is written for the engine's name of a constant may stand in front of both texts. -/
theorem respelled_writtenName (hk : k ∈ constants) (hr : startsWith isWord r = false)
    (h : Respelled id 1 False false r r') :
    Respelled id 1 False b (writtenName k b ++ r) (writtenName k b ++ r') := by
  have hletters := isLetters_engineName hk
  cases b with
  | false => exact .renamed hletters hletters rfl hr h
  | true =>
    have hclosed : Respelled id 1 False false (')' :: r) (')' :: r') := .other (by decide) h
    have hname := Respelled.renamed hletters hletters rfl rfl hclosed
    have hopened : Respelled id 1 False true ('(' :: (k.engineName.toList ++ ')' :: r))
        ('(' :: (k.engineName.toList ++ ')' :: r')) := .other (by decide) hname
    rw [writtenName, if_pos rfl, List.cons_append, List.cons_append, List.append_assoc,
      List.append_assoc]
    exact hopened

/-- The engine's name of a constant may be bracketed in one of the texts. -/
theorem respelled_engineName (hk : k ∈ constants) (hr : startsWith isWord r = false)
    (hopens : opensArguments r = false) (h : Respelled id 1 False false r r') :
    Respelled id 1 False b (k.engineName.toList ++ r) (writtenName k b ++ r') ∧
      Respelled id 1 False b (writtenName k b ++ r) (k.engineName.toList ++ r') := by
  have hletters := isLetters_engineName hk
  cases b with
  | false => exact ⟨.renamed hletters hletters rfl hr h, .renamed hletters hletters rfl hr h⟩
  | true =>
    rw [writtenName, if_pos rfl, List.cons_append, List.cons_append, List.append_assoc,
      List.append_assoc]
    exact ⟨.added Nat.one_pos hletters hletters rfl False.elim hr hopens h,
      .removed hletters hletters rfl False.elim hr hopens h⟩

/-- A constant that is kept is spelled as the engine does. -/
theorem name_eq_engineName (h : k.engineName = w.text) : w.name = k.engineName.toList := by
  rw [h, Identifier.text, String.toList_ofList]

/-- Behind words in another case the same texts follow. -/
theorem respelled_written (h : Piece.Recased (.word w) (.word w'))
    (hf : w'.followsNumber = w.followsNumber) (hw : ∃ c cs, w.name = c :: cs ∧
      isWordStart c = true ∧ ∀ d ∈ cs, isWord d = true)
    (hr : startsWith isWord r = false) (hopens : opensArguments r = w.isCall)
    (hbehind : Respelled id 1 False false r r') :
    Respelled id 1 False w.followsNumber ((initial.replacement w).getD w.name ++ r)
      ((initial.replacement w').getD w'.name ++ r') := by
  have hconstant := constant?_of_recased h
  obtain ⟨hcall, hname⟩ := h
  rcases replacement_initial w with ⟨hnone, hkept⟩ | ⟨k, hk, hw₁, hne, hsome⟩ <;>
    rcases replacement_initial w' with ⟨hnone', hkept'⟩ | ⟨k', hk', hw₂, hne', hsome'⟩
  · have heq : w'.name = w.name := by
      rcases hname with heq | ⟨hw₁, hw₂, -⟩
      · exact heq
      · obtain ⟨k, hk⟩ := Option.isSome_iff_exists.mp hw₂
        refine name_eq_of_text ?_
        rw [← hkept hw₁ k hk, ← hkept' (hcall.trans hw₁) k (hconstant.trans hk)]
    obtain ⟨c, cs, hchars, hc, hcs⟩ := hw
    rw [hnone, hnone', Option.getD_none, Option.getD_none, heq, hchars]
    exact .word hc hcs hr hbehind
  · have hcalled := hcall.symm.trans hw₂
    have hk := hconstant.symm.trans hk'
    have hkeptName := name_eq_engineName (hkept hcalled _ hk)
    rw [hnone, hsome', Option.getD_none, Option.getD_some, hf, hkeptName]
    exact (respelled_engineName (constant?_eq_some hk).1 hr (hopens.trans hcalled) hbehind).1
  · have hcalled := hcall.trans hw₁
    have hk' := hconstant.trans hk
    have hkeptName := name_eq_engineName (hkept' hcalled _ hk')
    rw [hsome, hnone', Option.getD_none, Option.getD_some, hkeptName]
    exact (respelled_engineName (constant?_eq_some hk).1 hr (hopens.trans hw₁) hbehind).2
  · rw [hconstant, hk] at hk'
    cases hk'
    rw [hsome, hsome', hf]
    exact respelled_writtenName (constant?_eq_some hk).1 hr hbehind

end

/-- With the engine's names texts in another case are the same but for brackets. -/
theorem respelled_recased {f : Bool} {n n' : Nat} {s s' : List Char}
    (h : List.Forall₂ Piece.Recased (pieces f n s) (pieces f n' s')) :
    Respelled id 1 False f (replaceFrom initial.replacement f n s)
      (replaceFrom initial.replacement f n' s') := by
  induction s using wordsInduction generalizing f n n' s' with
  | nil =>
    rw [pieces] at h
    obtain rfl := eq_nil_of_pieces (List.forall₂_nil_left_iff.mp h)
    rw [replaceFrom_nil, replaceFrom_nil]
    exact .nil
  | other c rest hc ih =>
    rw [pieces_other hc] at h
    obtain ⟨p', ps', hpiece, hrest, hs'⟩ := List.forall₂_cons_left_iff.mp h
    cases p' with
    | word w' => cases hpiece
    | other c' =>
      cases hpiece
      obtain ⟨rest', rfl, -, rfl⟩ := exists_of_pieces_other hs'
      rw [replaceFrom_other f n _ hc, replaceFrom_other f n' _ hc]
      exact .other hc (ih hrest)
  | word c rest hc ih =>
    rw [pieces_word hc] at h
    obtain ⟨p', ps', hpiece, hrest, hs'⟩ := List.forall₂_cons_left_iff.mp h
    cases p' with
    | other c' => cases hpiece
    | word w' =>
      obtain ⟨c', rest', rfl, hc', rfl, rfl⟩ := exists_of_pieces_word hs'
      obtain ⟨hword, hopens⟩ := startsWith_replaceFrom initial.replacement false
        (n + byteCount (c :: rest.takeWhile isWord)) rest
      rw [replaceFrom_word f n _ hc, replaceFrom_word f n' _ hc']
      exact respelled_written hpiece rfl
        ⟨c, _, rfl, hc, List.all_eq_true.mp List.all_takeWhile⟩ hword hopens (ih hrest)

/-! ## Readings -/

/-- The expression that a text is read as in a batch without assignments. -/
def reading (t : String) : Except ParseError Expr :=
  Grammar.parse (Validation.normalize (initial.apply t).1.text)

/-- Two texts are the same but for the case of constants that are not called. -/
def Recased (s s' : List Char) : Prop := List.Forall₂ Piece.Recased (piecesOf s) (piecesOf s')

/-- The same numbers are read off the normal forms of two texts. -/
def SameNumbers (t t' : String) : Prop :=
  (numerals (normalizeChars t'.toList)).map Prod.fst =
    (numerals (normalizeChars t.toList)).map Prod.fst

instance (s s' : List Char) : Decidable (Recased s s') :=
  inferInstanceAs (Decidable (List.Forall₂ _ _ _))

instance (t t' : String) : Decidable (SameNumbers t t') := inferInstanceAs (Decidable (_ = _))

variable {s s' : List Char} {t t' : String}

/-- The constants have no brackets. -/
theorem rounded_initial : initial.rounded = initial := by decide +kernel

/-- The normal form of what is written for a text is written for its normal form. -/
theorem normalize_apply {m : Memory} (hm : m.Blankless)
    (ht : splitAssignment? (dropBlanks t.toList) = none) :
    (Validation.normalize (m.apply t).1.text).toList =
      m.rounded.substitute (normalizeChars t.toList) := by
  have hblank := hm.substitute (s := dropBlanks t.toList)
    fun c hc => isBlank_of_mem_dropBlanks hc
  simp only [apply, ht, Outcome.text, Validation.normalize, String.toList_ofList]
  rw [normalizeChars_eq_dropBlanks, dropBlanks_rounded, dropBlanks_eq_self hblank,
    ← substitute_rounded]
  rfl

/-- The normal form of what is written in a batch without assignments. -/
theorem normalize_apply_initial (ht : splitAssignment? (dropBlanks t.toList) = none) :
    (Validation.normalize (initial.apply t).1.text).toList =
      initial.substitute (normalizeChars t.toList) := by
  rw [normalize_apply blankless_initial ht, rounded_initial]

/-- The shape of brackets does not matter for the case of words. -/
theorem Recased.rounded (h : Recased s s') : Recased (Text.rounded s) (Text.rounded s') := by
  rw [Recased, piecesOf, piecesOf, pieces_rounded, pieces_rounded, List.forall₂_map_left_iff,
    List.forall₂_map_right_iff]
  refine h.imp fun p p' hp => ?_
  cases p <;> cases p'
  · exact hp
  · exact hp
  · exact hp
  · cases hp
    rfl

/-- No blank is written in a text without blanks. -/
theorem isBlank_of_mem_reading {c : Char}
    (hc : c ∈ initial.substitute (normalizeChars t.toList)) : isBlank c = false :=
  blankless_initial.substitute (fun _ hd => isBlank_of_mem_normalize
    (t := t) (by rwa [Validation.normalize, String.toList_ofList])) c hc

/-- What is read off two texts in another case is the same but for the brackets of constants. -/
theorem readAlike_of_recased (h : Recased (dropBlanks t.toList) (dropBlanks t'.toList))
    (hn : SameNumbers t t') :
    ReadAlike id 1 false (initial.substitute (normalizeChars t.toList))
      (initial.substitute (normalizeChars t'.toList)) := by
  have hnumerals (t : String) : (numerals (normalizeChars t.toList)).map Prod.fst =
      (numerals (initial.substitute (normalizeChars t.toList))).map Prod.fst :=
    ((respelled_initial false 0 _).readAlike (fun c hc => isBlank_of_mem_reading hc)
      (.inl trivial)).numerals
  refine (respelled_recased h.rounded).readAlike (fun c hc => isBlank_of_mem_reading hc) (.inr ?_)
  exact (hnumerals t').symm.trans (hn.trans (hnumerals t))

end Memory

namespace Grammar

open Reckoner.Expr

/-- What becomes of an expression that takes some levels: it is read, or it nests too deeply. -/
def limited (levels : Nat) (e : Expr) : Except ParseError Expr :=
  if levels < maxLevels ∧ e.depth ≤ maxHeight then .ok e else .error .nestedTooDeeply

/-- A text that cannot be read to its end is no expression. -/
theorem parse_of_fault {n : String} (h : (scanAll n.toList).2.isSome = true) :
    ∃ e, parse n = .error e := by
  cases hp : parse n with
  | error e => exact ⟨e, rfl⟩
  | ok e =>
    obtain ⟨ts, hts, -⟩ := derives_of_parse hp
    rw [hts] at h
    cases h

/-- A text whose tokens make up no expression is none. -/
theorem parse_of_not_nested {n : String}
    (h : ¬ ∃ k e, Nested k (.expression e) (scanAll n.toList).1 []) : ∃ e, parse n = .error e := by
  cases hp : parse n with
  | error e => exact ⟨e, rfl⟩
  | ok e =>
    obtain ⟨ts, hts, hd, -⟩ := derives_of_parse hp
    obtain ⟨k, hk⟩ := hd.nested
    rw [hts] at h
    exact absurd ⟨k, e, hk⟩ h

/-- Texts whose tokens differ in the brackets around names behind numbers are both no expressions,
or the same one, on at most one level more or less. -/
theorem parse_of_readAlike {n n' : String} (h : ReadAlike id 1 false n.toList n'.toList) :
    (∃ e e', parse n = .error e ∧ parse n' = .error e') ∨
      ∃ e k k', k ≤ k' + 1 ∧ k' ≤ k + 1 ∧ parse n = limited k e ∧ parse n' = limited k' e := by
  by_cases hf : (scanAll n.toList).2.isSome = true
  · obtain ⟨e, he⟩ := parse_of_fault hf
    obtain ⟨e', he'⟩ := parse_of_fault (h.fault.trans hf)
    exact .inl ⟨e, e', he, he'⟩
  · have hts : scanAll n.toList = ((scanAll n.toList).1, none) :=
      Prod.ext rfl (Option.not_isSome_iff_eq_none.mp hf)
    have hts' : scanAll n'.toList = ((scanAll n'.toList).1, none) :=
      Prod.ext rfl (Option.not_isSome_iff_eq_none.mp fun h' => hf (h.fault.symm.trans h'))
    by_cases hd : ∃ k e, Nested k (.expression e) (scanAll n.toList).1 []
    · obtain ⟨k, e, hk⟩ := hd
      obtain ⟨k', e', hle, he', hk'⟩ := hk.of_rebracketed h.tokens
      obtain ⟨k'', e'', hle', he'', hk''⟩ := hk'.of_rebracketed h.tokens.symm
      rw [rename_id, rename_id] at he' he''
      subst he' he''
      obtain rfl := hk.levels_unique hk''
      exact .inr ⟨_, k, k', hle', hle, parse_of_nested hts hk, parse_of_nested hts' hk'⟩
    · obtain ⟨e, he⟩ := parse_of_not_nested hd
      obtain ⟨e', he'⟩ := parse_of_not_nested (n := n') fun ⟨k', e', hk'⟩ => by
        obtain ⟨k, e, -, -, hk⟩ := hk'.of_rebracketed h.tokens.symm
        exact hd ⟨k, e, hk⟩
      exact .inl ⟨e, e', he, he'⟩

end Grammar

namespace Memory

variable {t t' : String}

/-- Two texts that differ in the case of constants, once blanks are removed, and of which the same
numbers are read off, are both no expressions or the same one; brackets around a constant behind a
number take one level more in one of them. -/
theorem reading_of_recased (ht : splitAssignment? (dropBlanks t.toList) = none)
    (ht' : splitAssignment? (dropBlanks t'.toList) = none)
    (h : Recased (dropBlanks t.toList) (dropBlanks t'.toList)) (hn : SameNumbers t t') :
    (∃ e e', reading t = .error e ∧ reading t' = .error e') ∨
      ∃ e k k', k ≤ k' + 1 ∧ k' ≤ k + 1 ∧ reading t = Grammar.limited k e ∧
        reading t' = Grammar.limited k' e := by
  have halike := readAlike_of_recased h hn
  rw [← normalize_apply_initial ht, ← normalize_apply_initial ht'] at halike
  exact Grammar.parse_of_readAlike halike

/-- Constants behind numbers, in calls and in brackets that call, in other cases. -/
theorem reading_of_recased_calls :
    splitAssignment? (dropBlanks "2pi*sin[PHI]-(e)[x]/E".toList) = none ∧
      splitAssignment? (dropBlanks "2Pi*sin[phi]-(E)[x]/e".toList) = none ∧
      Recased (dropBlanks "2pi*sin[PHI]-(e)[x]/E".toList)
        (dropBlanks "2Pi*sin[phi]-(E)[x]/e".toList) ∧
      SameNumbers "2pi*sin[PHI]-(e)[x]/E" "2Pi*sin[phi]-(E)[x]/e" ∧
      ((∃ e e', reading "2pi*sin[PHI]-(e)[x]/E" = .error e ∧
          reading "2Pi*sin[phi]-(E)[x]/e" = .error e') ∨
        ∃ e k k', k ≤ k' + 1 ∧ k' ≤ k + 1 ∧
          reading "2pi*sin[PHI]-(e)[x]/E" = Grammar.limited k e ∧
          reading "2Pi*sin[phi]-(E)[x]/e" = Grammar.limited k' e) := by
  have ht : splitAssignment? (dropBlanks "2pi*sin[PHI]-(e)[x]/E".toList) = none := by decide
  have ht' : splitAssignment? (dropBlanks "2Pi*sin[phi]-(E)[x]/e".toList) = none := by decide
  have h : Recased (dropBlanks "2pi*sin[PHI]-(e)[x]/E".toList)
      (dropBlanks "2Pi*sin[phi]-(E)[x]/e".toList) := by decide +kernel
  have hn : SameNumbers "2pi*sin[PHI]-(e)[x]/E" "2Pi*sin[phi]-(E)[x]/e" := by decide +kernel
  exact ⟨ht, ht', h, hn, reading_of_recased ht ht' h hn⟩

/-- Behind a number and in front of a minus sign a small letter is a constant, and a capital one
marks an exponent. -/
theorem reading_misses_exponent :
    ¬ ∀ t t' : String, splitAssignment? (dropBlanks t.toList) = none →
      splitAssignment? (dropBlanks t'.toList) = none → Recased t.toList t'.toList →
        (∃ e e', reading t = .error e ∧ reading t' = .error e') ∨
          ∃ e, reading t = .ok e ∧ reading t' = .ok e := by
  intro h
  have hsmall : (reading "2e-x").isOk = true := by decide +kernel
  have hcapital : (reading "2E-x").isOk = false := by decide +kernel
  rcases h "2e-x" "2E-x" (by decide) (by decide) (by decide +kernel) with
    ⟨e, e', he, -⟩ | ⟨e, -, he⟩
  · rw [he] at hsmall
    cases hsmall
  · rw [he] at hcapital
    cases hcapital

end Memory

end Reckoner
