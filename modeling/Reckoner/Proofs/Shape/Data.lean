import Mathlib.Tactic.FinCases
import Reckoner.Expr.Printer
import Reckoner.Proofs.Decimal.Canonical
import Reckoner.Proofs.Grammar.Lexemes
import Reckoner.Shape.Pattern

/-!
# Shapes of exact data

The canonical text of an exact number is numeric, that of a row of numbers a vector, and that of at
least two rows a matrix; no other tree of exact numbers and lists has a text of these shapes. In
front of a comma or a brace, a pattern passes over the whole item if it has the form, and refuses it
otherwise, so it never stops within an item.
-/

namespace Reckoner

namespace Expr

/-- A tree of exact numbers and lists. -/
inductive IsData : Expr → Prop where
  | exact (q : Fraction) : IsData (.exact q)
  | list {as : List Expr} (h : ∀ a ∈ as, IsData a) : IsData (.list as)

/-- An exact number. -/
def IsScalar (e : Expr) : Prop := ∃ q, e = .exact q

/-- Exact numbers in a row, at least one. -/
def IsRow (e : Expr) : Prop := ∃ as, as ≠ [] ∧ (∀ a ∈ as, IsScalar a) ∧ e = .list as

/-- At least two rows, which may differ in length. -/
def IsGrid (e : Expr) : Prop := ∃ as, 2 ≤ as.length ∧ (∀ a ∈ as, IsRow a) ∧ e = .list as

theorem not_isScalar_list (as : List Expr) : ¬ IsScalar (.list as) := by
  rintro ⟨q, ⟨⟩⟩

/-- An exact number is no row. -/
theorem IsScalar.not_isRow {e : Expr} (h : e.IsScalar) : ¬ e.IsRow := by
  obtain ⟨q, rfl⟩ := h
  rintro ⟨as, -, -, ⟨⟩⟩

/-- An exact number is no grid. -/
theorem IsScalar.not_isGrid {e : Expr} (h : e.IsScalar) : ¬ e.IsGrid := by
  obtain ⟨q, rfl⟩ := h
  rintro ⟨as, -, -, ⟨⟩⟩

/-- A list is a row if it has items and all are exact numbers. -/
theorem isRow_list_iff {as : List Expr} :
    IsRow (.list as) ↔ as ≠ [] ∧ ∀ a ∈ as, IsScalar a := by
  constructor
  · rintro ⟨_, hne, hscalar, ⟨⟩⟩
    exact ⟨hne, hscalar⟩
  · rintro ⟨hne, hscalar⟩
    exact ⟨as, hne, hscalar, rfl⟩

/-- A list is a grid if it has two items and all are rows. -/
theorem isGrid_list_iff {as : List Expr} :
    IsGrid (.list as) ↔ 2 ≤ as.length ∧ ∀ a ∈ as, IsRow a := by
  constructor
  · rintro ⟨_, htwo, hrows, ⟨⟩⟩
    exact ⟨htwo, hrows⟩
  · rintro ⟨htwo, hrows⟩
    exact ⟨as, htwo, hrows, rfl⟩

/-- The items of a row are no rows. -/
theorem IsRow.not_isGrid {e : Expr} (h : e.IsRow) : ¬ e.IsGrid := by
  obtain ⟨as, hne, hscalar, rfl⟩ := h
  obtain ⟨a, as, rfl⟩ := List.exists_cons_of_ne_nil hne
  intro hgrid
  exact (hscalar a (.head as)).not_isRow ((isGrid_list_iff.mp hgrid).2 a (.head as))

/-- The characters of the canonical text. -/
abbrev characters (e : Expr) : List Char := (e.print none).toList

/-- The canonical texts with commas between them. -/
def joined (as : List Expr) : List Char := (String.intercalate "," (printAll none as)).toList

theorem joined_nil : joined [] = [] := rfl

theorem joined_singleton (a : Expr) : joined [a] = a.characters := by
  rw [joined, printAll, printAll, String.intercalate_singleton]

theorem joined_cons_cons (a b : Expr) (as : List Expr) :
    joined (a :: b :: as) = a.characters ++ ',' :: joined (b :: as) := by
  rw [joined, joined, printAll, printAll, String.intercalate_cons_cons, String.toList_append,
    String.toList_append, List.append_assoc]
  rfl

/-- A list is written in braces. -/
theorem characters_list (as : List Expr) :
    (Expr.list as).characters = '\x7b' :: (joined as ++ ['\x7d']) := by
  rw [characters, print, String.toList_append, String.toList_append]
  rfl

/-- A character of the texts of exact data. -/
def isDataChar (c : Char) : Bool :=
  c.isDigit || c == '-' || c == '/' || c == ',' || c == '\x7b' || c == '\x7d'

theorem toNat_of_isDataChar {c : Char} (h : isDataChar c = true) :
    (44 ≤ c.toNat ∧ c.toNat ≤ 57) ∨ c.toNat = 123 ∨ c.toNat = 125 := by
  simp only [isDataChar, Bool.or_eq_true, beq_iff_eq] at h
  rcases h with ((((h | rfl) | rfl) | rfl) | rfl) | rfl
  · have := Token.toNat_of_isDigit h
    omega
  all_goals decide

/-- The texts of exact data have no blanks. -/
theorem isBlank_of_isDataChar {c : Char} (h : isDataChar c = true) : Text.isBlank c = false := by
  have := toNat_of_isDataChar h
  exact Token.isBlank_of_toNat (by omega)

/-- The texts of exact data have no letters. -/
theorem isAlpha_of_isDataChar {c : Char} (h : isDataChar c = true) : c.isAlpha = false := by
  refine Bool.eq_false_iff.mpr fun hletter => ?_
  have hletter := Token.toNat_of_isAlpha hletter
  have := toNat_of_isDataChar h
  omega

/-- An integer is written as data. -/
theorem isDataChar_toString (n : Int) : ∀ c ∈ (toString n).toList, isDataChar c = true := by
  obtain ⟨negative, k, hk⟩ := Decimal.exists_toString n
  rw [hk]
  intro c hc
  rcases List.mem_append.mp hc with hc | hc
  · cases negative with
    | true =>
      obtain rfl := List.mem_singleton.mp hc
      decide
    | false => cases hc
  · have hdigit := Nat.isDigit_of_mem_toDigits (by decide) (by decide) hc
    simp only [isDataChar, hdigit, Bool.true_or]

/-- A fraction is written as data. -/
theorem isDataChar_fraction (q : Fraction) : ∀ c ∈ q.text.toList, isDataChar c = true := by
  unfold Fraction.text
  split
  · exact isDataChar_toString q.num
  · have hslash : ∀ c ∈ "/".toList, isDataChar c = true := by
      change ∀ c ∈ ['/'], isDataChar c = true
      exact List.forall_mem_singleton.mpr rfl
    simp only [String.toList_append, List.forall_mem_append]
    exact ⟨⟨isDataChar_toString q.num, hslash⟩, isDataChar_toString q.den⟩

/-- Items that are written as data are so with commas. -/
theorem isDataChar_joined {as : List Expr} (h : ∀ a ∈ as, ∀ c ∈ a.characters, isDataChar c = true) :
    ∀ c ∈ joined as, isDataChar c = true := by
  induction as with
  | nil => exact List.forall_mem_nil _
  | cons a as ih =>
    rw [List.forall_mem_cons] at h
    cases as with
    | nil =>
      rw [joined_singleton]
      exact h.1
    | cons b as =>
      rw [joined_cons_cons, List.forall_mem_append, List.forall_mem_cons]
      exact ⟨h.1, by decide, ih h.2⟩

/-- The text of exact data has digits, minus signs, slashes, commas and braces only. -/
theorem IsData.isDataChar {e : Expr} (h : e.IsData) : ∀ c ∈ e.characters, isDataChar c = true := by
  induction h with
  | exact q =>
    rw [characters, print]
    exact isDataChar_fraction q
  | list _ ih =>
    rw [characters_list, List.forall_mem_cons, List.forall_mem_append, List.forall_mem_singleton]
    exact ⟨by decide, isDataChar_joined ih, by decide⟩

end Expr

namespace Shape

open Reckoner.Expr

variable {s rest : List Char}

/-! ## Series -/

section

variable {isSeparator : Char → Bool} {item : List Char → Option (List Char)}

/-- Without a first item there is no series. -/
theorem skipSeries_none (h : item s = none) : skipSeries isSeparator item s = none := by
  rw [skipSeries, h]

/-- The last item is not followed by a separator. -/
theorem skipSeries_last (h : item s = some rest)
    (hrest : ∀ c r, rest = c :: r → isSeparator c = false) :
    skipSeries isSeparator item s = some rest := by
  rw [skipSeries, h]
  cases rest with
  | nil => rfl
  | cons c r =>
    dsimp only
    rw [if_neg (Bool.eq_false_iff.mp (hrest c r rfl))]

/-- Behind a separator the next items follow. -/
theorem skipSeries_more {c : Char} (h : item s = some (c :: rest)) (hc : isSeparator c = true)
    (hlt : rest.length < s.length) :
    skipSeries isSeparator item s = skipSeries isSeparator item rest := by
  rw [skipSeries, h]
  dsimp only
  rw [if_pos hc, if_pos hlt]

end

/-! ## Numbers -/

/-- What stands behind an item: nothing, a comma or a closing brace. -/
inductive Ended : List Char → Prop where
  | nil : Ended []
  | comma (rest : List Char) : Ended (',' :: rest)
  | brace (rest : List Char) : Ended ('\x7d' :: rest)

/-- A whole number does not go on there. -/
def stopsWhole : List Char → Bool
  | c :: _ => !(Text.isDecimalDigit c || c == '.' || c == 'E')
  | [] => true

/-- At the end of an item a whole number stops. -/
theorem Ended.stopsWhole (h : Ended rest) : stopsWhole rest = true := by
  cases h <;> rfl

/-- Digits are passed over up to where the number stops. -/
theorem skipDigits_append {ds : List Char} (hne : ds ≠ []) (hds : ∀ c ∈ ds, c.isDigit = true)
    (hrest : stopsWhole rest = true) : skipDigits (ds ++ rest) = some rest := by
  have hdecimal : ∀ c ∈ ds, Text.isDecimalDigit c = true :=
    fun c hc => Text.isDecimalDigit_of_isDigit (hds c hc)
  have hdrop : (ds ++ rest).dropWhile Text.isDecimalDigit = rest := by
    rw [List.dropWhile_append_of_pos hdecimal]
    cases rest with
    | nil => rfl
    | cons c r =>
      refine List.dropWhile_cons_of_neg fun hc => ?_
      rw [Shape.stopsWhole, hc] at hrest
      cases hrest
  cases ds with
  | nil => exact absurd rfl hne
  | cons d ds =>
    rw [skipDigits.eq_def]
    dsimp only [List.cons_append]
    rw [if_pos (hdecimal d (.head _))]
    exact congrArg some hdrop

/-- A whole number is passed over up to where it stops. -/
theorem skipNumber_append {ds : List Char} (hne : ds ≠ []) (hds : ∀ c ∈ ds, c.isDigit = true)
    (hrest : stopsWhole rest = true) : skipNumber (ds ++ rest) = some rest := by
  have hpointed : skipPointed (ds ++ rest) = some rest := by
    unfold skipPointed
    rw [skipDigits_append hne hds hrest]
    split
    · rename_i r heq
      cases heq
      cases hrest
    · rename_i heq
      exact heq.symm
    · rename_i heq
      cases heq
  have hexponent : skipExponent rest = rest := by
    unfold skipExponent
    split
    · cases hrest
    · cases hrest
    · rfl
  rw [skipNumber, hpointed, Option.map_some, hexponent]

/-- A signed whole number is a term. -/
theorem skipTerm_toString (n : Int) (hrest : stopsWhole rest = true) :
    skipTerm ((toString n).toList ++ rest) = some rest := by
  obtain ⟨negative, k, hk⟩ := Decimal.exists_toString n
  have hdigits : ∀ c ∈ Nat.toDigits 10 k, c.isDigit = true :=
    fun c hc => Nat.isDigit_of_mem_toDigits (by decide) (by decide) hc
  have hsign : skipSign ((toString n).toList ++ rest) = Nat.toDigits 10 k ++ rest := by
    rw [hk]
    cases negative with
    | true => rfl
    | false =>
      cases hd : Nat.toDigits 10 k with
      | nil => exact absurd hd Nat.toDigits_ne_nil
      | cons d ds =>
        have hdigit : d.isDigit = true := hdigits d (hd ▸ .head _)
        dsimp only [Bool.false_eq_true, if_false, List.nil_append, List.cons_append]
        unfold skipSign
        split
        · rename_i heq
          cases heq
          exact absurd hdigit (by decide)
        · rename_i heq
          cases heq
          exact absurd hdigit (by decide)
        · rfl
  rw [skipTerm, hsign, skipNumber_append Nat.toDigits_ne_nil hdigits hrest, Option.some_or]

/-- An exact number is passed over as a whole. -/
theorem skipNumeric_fraction (q : Fraction) (h : Ended rest) :
    skipNumeric (q.text.toList ++ rest) = some rest := by
  have hlast : ∀ c r, rest = c :: r → isTermSign c = false := by
    rintro c r rfl
    cases h <;> decide
  unfold Fraction.text
  split
  · exact skipSeries_last (skipTerm_toString q.num h.stopsWhole) hlast
  · have hparts : (toString q.num ++ "/" ++ toString q.den).toList ++ rest =
        (toString q.num).toList ++ '/' :: ((toString q.den).toList ++ rest) := by
      rw [String.toList_append, String.toList_append, List.append_assoc, List.append_assoc]
      rfl
    have hnum : skipTerm ((toString q.num).toList ++ '/' :: ((toString q.den).toList ++ rest)) =
        some ('/' :: ((toString q.den).toList ++ rest)) := skipTerm_toString q.num rfl
    rw [hparts, skipNumeric, skipSeries_more hnum (by decide) (by
      simp only [List.length_append, List.length_cons]
      omega)]
    exact skipSeries_last (skipTerm_toString q.den h.stopsWhole) hlast

/-- No number or constant starts with a brace. -/
theorem skipNumeric_brace {c : Char} (h : c = '\x7b' ∨ c = '\x7d') (s : List Char) :
    skipNumeric (c :: s) = none := by
  refine skipSeries_none ?_
  have hnumber : skipNumber (c :: s) = none := by
    rcases h with rfl | rfl <;> rfl
  have hconstant : skipConstant (c :: s) = none := by
    have hletters : (c :: s).takeWhile Char.isAlpha = [] := by
      rcases h with rfl | rfl <;> rfl
    have hempty : Vocabulary.isConstant (String.ofList []) = false := by decide +kernel
    rw [skipConstant, hletters, hempty]
    rfl
  have hsign : skipSign (c :: s) = c :: s := by
    rcases h with rfl | rfl <;> rfl
  rw [skipTerm, hsign, hnumber, hconstant, Option.none_or]

/-! ## Items -/

/-- In front of the end of an item, items of the form are passed over and others refused. -/
structure TellsApart (item : List Char → Option (List Char)) (P : Expr → Prop) (a : Expr) :
    Prop where
  /-- An item of the form is passed over. -/
  passes : P a → ∀ rest, Ended rest → item (a.characters ++ rest) = some rest
  /-- Any other item is refused. -/
  refuses : ¬ P a → ∀ rest, Ended rest → item (a.characters ++ rest) = none

variable {item : List Char → Option (List Char)} {P : Expr → Prop} {as : List Expr}

/-- In front of a closing brace, a series of items of the form is passed over. -/
theorem skipSeries_joined (h : ∀ a ∈ as, TellsApart item P a) (hne : as ≠ [])
    (hP : ∀ a ∈ as, P a) (rest : List Char) :
    skipSeries (· == ',') item (joined as ++ '\x7d' :: rest) = some ('\x7d' :: rest) := by
  induction as with
  | nil => exact absurd rfl hne
  | cons a as ih =>
    rw [List.forall_mem_cons] at h hP
    cases as with
    | nil =>
      rw [joined_singleton]
      refine skipSeries_last (h.1.passes hP.1 _ (.brace rest)) ?_
      rintro c r ⟨⟩
      rfl
    | cons b as =>
      rw [joined_cons_cons, List.append_assoc, List.cons_append,
        skipSeries_more (h.1.passes hP.1 _ (.comma _)) rfl (by
          simp only [List.length_append, List.length_cons]
          omega)]
      exact ih h.2 (List.cons_ne_nil b as) hP.2

/-- A series with an item of another form is refused. -/
theorem skipSeries_joined_none (h : ∀ a ∈ as, TellsApart item P a) (hne : as ≠ [])
    (hP : ¬ ∀ a ∈ as, P a) (rest : List Char) :
    skipSeries (· == ',') item (joined as ++ '\x7d' :: rest) = none := by
  induction as with
  | nil => exact absurd rfl hne
  | cons a as ih =>
    rw [List.forall_mem_cons] at h hP
    by_cases ha : P a
    · cases as with
      | nil => exact absurd ⟨ha, List.forall_mem_nil _⟩ hP
      | cons b as =>
        rw [joined_cons_cons, List.append_assoc, List.cons_append,
          skipSeries_more (h.1.passes ha _ (.comma _)) rfl (by
            simp only [List.length_append, List.length_cons]
            omega)]
        exact ih h.2 (List.cons_ne_nil b as) fun hrest => hP ⟨ha, hrest⟩
    · refine skipSeries_none ?_
      cases as with
      | nil =>
        rw [joined_singleton]
        exact h.1.refuses ha _ (.brace rest)
      | cons b as =>
        rw [joined_cons_cons, List.append_assoc, List.cons_append]
        exact h.1.refuses ha _ (.comma _)

variable {a : Expr}

/-- The text of a list in front of others. -/
theorem characters_list_append (as : List Expr) (rest : List Char) :
    (Expr.list as).characters ++ rest = '\x7b' :: (joined as ++ '\x7d' :: rest) := by
  rw [characters_list, List.cons_append, List.append_assoc, List.singleton_append]

/-- Exact numbers are told apart from lists. -/
theorem tellsApart_scalar (h : a.IsData) : TellsApart skipNumeric IsScalar a := by
  cases h with
  | exact q =>
    refine ⟨fun _ rest hrest => ?_, fun hnone => absurd ⟨q, rfl⟩ hnone⟩
    exact skipNumeric_fraction q hrest
  | @list as _ =>
    refine ⟨fun hscalar => absurd hscalar (not_isScalar_list as), fun _ rest _ => ?_⟩
    rw [characters_list_append]
    exact skipNumeric_brace (.inl rfl) _

/-- The text of an exact number does not start with a brace. -/
theorem exists_cons_fraction (q : Fraction) :
    ∃ c s, q.text.toList = c :: s ∧ c ≠ '\x7b' := by
  have hnum : ∃ c s, (toString q.num).toList = c :: s ∧ c ≠ '\x7b' := by
    obtain ⟨negative, k, hk⟩ := Decimal.exists_toString q.num
    cases negative with
    | true => exact ⟨'-', _, hk, by decide⟩
    | false =>
      cases hd : Nat.toDigits 10 k with
      | nil => exact absurd hd Nat.toDigits_ne_nil
      | cons d ds =>
        refine ⟨d, ds, by rw [hk, hd]; rfl, ?_⟩
        have hdigit := Nat.isDigit_of_mem_toDigits (by decide) (by decide)
          (hd ▸ List.mem_cons_self)
        rintro rfl
        exact absurd hdigit (by decide)
  obtain ⟨c, s, hs, hc⟩ := hnum
  unfold Fraction.text
  split
  · exact ⟨c, s, hs, hc⟩
  · refine ⟨c, s ++ ('/' :: (toString q.den).toList), ?_, hc⟩
    rw [String.toList_append, String.toList_append, hs, List.append_assoc]
    rfl

/-- A row starts with a brace. -/
theorem skipRow_of_ne {c : Char} (hc : c ≠ '\x7b') (s : List Char) : skipRow (c :: s) = none := by
  unfold skipRow
  split
  · rename_i heq
    cases heq
    exact absurd rfl hc
  · rfl

/-- So does a matrix. -/
theorem skipMatrix_of_ne {c : Char} (hc : c ≠ '\x7b') (s : List Char) :
    skipMatrix (c :: s) = none := by
  unfold skipMatrix
  split
  · rename_i heq
    cases heq
    exact absurd rfl hc
  · rfl

/-- Rows are told apart from numbers and from other lists. -/
theorem tellsApart_row (h : a.IsData) : TellsApart skipRow IsRow a := by
  cases h with
  | exact q =>
    have hscalar : IsScalar (.exact q) := ⟨q, rfl⟩
    refine ⟨fun hrow => absurd hrow hscalar.not_isRow, fun _ rest _ => ?_⟩
    obtain ⟨c, s, hs, hc⟩ := exists_cons_fraction q
    rw [characters, print, hs]
    exact skipRow_of_ne hc _
  | @list as has =>
    have hitems : ∀ a ∈ as, TellsApart skipNumeric IsScalar a :=
      fun a ha => tellsApart_scalar (has a ha)
    refine ⟨fun hrow rest _ => ?_, fun hother rest _ => ?_⟩
    · obtain ⟨hne, hscalar⟩ := isRow_list_iff.mp hrow
      rw [characters_list_append, skipRow, skipSeries_joined hitems hne hscalar]
      rfl
    · rw [characters_list_append, skipRow]
      by_cases hne : as = []
      · subst hne
        rw [joined_nil, List.nil_append, skipSeries_none (skipNumeric_brace (.inr rfl) rest)]
        rfl
      · rw [skipSeries_joined_none hitems hne fun hscalar =>
          hother (isRow_list_iff.mpr ⟨hne, hscalar⟩)]
        rfl

/-- Behind the first row a matrix goes on with others. -/
theorem skipMatrix_cons {r : List Char} (h : skipRow s = some (',' :: r)) :
    skipMatrix ('\x7b' :: s) = (skipSeries (· == ',') skipRow r).bind skipClosing := by
  rw [skipMatrix, h]
  rfl

/-- Without a comma behind the first row there is no matrix. -/
theorem skipMatrix_none (h : ∀ r, skipRow s ≠ some (',' :: r)) :
    skipMatrix ('\x7b' :: s) = none := by
  unfold skipMatrix
  split
  · rename_i heq
    cases heq
    split
    · rename_i r hr
      exact absurd hr (h r)
    · rfl
  · rfl

/-- A single row is no matrix. -/
theorem skipMatrix_single (h : TellsApart skipRow IsRow a) (rest : List Char) :
    skipMatrix ('\x7b' :: (joined [a] ++ '\x7d' :: rest)) = none := by
  rw [joined_singleton]
  refine skipMatrix_none fun r hr => ?_
  by_cases ha : IsRow a
  · rw [h.passes ha _ (.brace rest)] at hr
    cases hr
  · rw [h.refuses ha _ (.brace rest)] at hr
    cases hr

section

variable {b : Expr} (hrow : TellsApart skipRow IsRow a)
  (hitems : ∀ x ∈ b :: as, TellsApart skipRow IsRow x)

include hrow hitems

/-- Rows behind a row are a matrix. -/
theorem skipMatrix_joined (hall : ∀ x ∈ a :: b :: as, IsRow x) (rest : List Char) :
    skipMatrix ('\x7b' :: (joined (a :: b :: as) ++ '\x7d' :: rest)) = some rest := by
  have hall := List.forall_mem_cons.mp hall
  rw [joined_cons_cons, List.append_assoc, List.cons_append,
    skipMatrix_cons (hrow.passes hall.1 _ (.comma _)),
    skipSeries_joined hitems (List.cons_ne_nil b as) hall.2]
  rfl

/-- With an item that is no row they are none. -/
theorem skipMatrix_joined_none (hall : ¬ ∀ x ∈ a :: b :: as, IsRow x) (rest : List Char) :
    skipMatrix ('\x7b' :: (joined (a :: b :: as) ++ '\x7d' :: rest)) = none := by
  rw [joined_cons_cons, List.append_assoc, List.cons_append]
  by_cases ha : IsRow a
  · have hothers : ¬ ∀ x ∈ b :: as, IsRow x :=
      fun hothers => hall (List.forall_mem_cons.mpr ⟨ha, hothers⟩)
    rw [skipMatrix_cons (hrow.passes ha _ (.comma _)),
      skipSeries_joined_none hitems (List.cons_ne_nil b as) hothers]
    rfl
  · refine skipMatrix_none fun r hr => ?_
    rw [hrow.refuses ha _ (.comma _)] at hr
    cases hr

end

/-- Matrices are told apart from other lists and from numbers. -/
theorem tellsApart_grid (h : a.IsData) : TellsApart skipMatrix IsGrid a := by
  cases h with
  | exact q =>
    have hscalar : IsScalar (.exact q) := ⟨q, rfl⟩
    refine ⟨fun hgrid => absurd hgrid hscalar.not_isGrid, fun _ rest _ => ?_⟩
    obtain ⟨c, s, hs, hc⟩ := exists_cons_fraction q
    rw [characters, print, hs]
    exact skipMatrix_of_ne hc _
  | @list as has =>
    have hitems : ∀ a ∈ as, TellsApart skipRow IsRow a := fun a ha => tellsApart_row (has a ha)
    cases as with
    | nil =>
      refine ⟨fun h => absurd (isGrid_list_iff.mp h).1 (Nat.not_succ_le_zero 1), fun _ rest _ => ?_⟩
      rw [characters_list_append]
      refine skipMatrix_none fun r hr => ?_
      cases hr
    | cons a as =>
      rw [List.forall_mem_cons] at hitems
      cases as with
      | nil =>
        refine ⟨fun h => absurd (isGrid_list_iff.mp h).1 (Nat.not_succ_le_self 1),
          fun _ rest _ => ?_⟩
        rw [characters_list_append]
        exact skipMatrix_single hitems.1 rest
      | cons b as =>
        refine ⟨fun hgrid rest _ => ?_, fun hother rest _ => ?_⟩
        · rw [characters_list_append]
          exact skipMatrix_joined hitems.1 hitems.2 (isGrid_list_iff.mp hgrid).2 rest
        · rw [characters_list_append]
          refine skipMatrix_joined_none hitems.1 hitems.2 (fun hall => hother ?_) rest
          exact isGrid_list_iff.mpr ⟨Nat.le_add_left 2 as.length, hall⟩

/-! ## Shapes -/

/-- The whole text of a tree is of a form that is told apart, or is not. -/
theorem TellsApart.isWhole_iff (h : TellsApart item P a) :
    isWhole item a.characters = true ↔ P a := by
  rw [isWhole, ← List.append_nil a.characters, beq_iff_eq]
  by_cases ha : P a
  · exact iff_of_true (h.passes ha [] .nil) ha
  · rw [h.refuses ha [] .nil]
    exact iff_of_false (by rintro ⟨⟩) ha

/-- Without a stroke there is no equation. -/
theorem hasEquation_eq_false (h : '=' ∉ s) : hasEquation s = false := by
  induction s with
  | nil => rfl
  | cons c s ih =>
    rw [List.mem_cons, not_or] at h
    unfold hasEquation
    split
    · rename_i heq
      cases heq
      exact absurd rfl h.1
    · rename_i heq
      cases heq
      exact ih h.2
    · rfl

/-- Without a stroke nothing is assigned. -/
theorem isAssignment_eq_false (h : '=' ∉ s) : isAssignment s = false := by
  unfold isAssignment
  split
  · exact absurd (List.mem_cons_of_mem _ (.head _)) h
  · rfl

/-- The text of exact data has the shape that the tree has as a matrix, a row or a number, if it is
one of these. -/
theorem ofChars_characters (h : a.IsData) :
    ofChars a.characters =
      if isWhole skipMatrix a.characters then matrix
      else if isWhole skipRow a.characters then vector
      else if isWhole skipNumeric a.characters then numeric
      else unknown := by
  have hchars := h.isDataChar
  have hfree {c : Char} (hc : isDataChar c = false) : c ∉ a.characters := by
    intro hmem
    rw [hchars c hmem] at hc
    cases hc
  have hvisible : Text.allBlank a.characters = false := by
    obtain ⟨c, s, hs⟩ : ∃ c s, a.characters = c :: s := by
      cases h with
      | exact q =>
        obtain ⟨c, s, hs, -⟩ := exists_cons_fraction q
        exact ⟨c, s, by rw [characters, print, hs]⟩
      | list => exact ⟨_, _, characters_list _⟩
    have hblank := isBlank_of_isDataChar (hchars c (hs ▸ .head _))
    rw [hs, Text.allBlank, List.all_cons, hblank, Bool.false_and]
  have hboolean : (a.characters == "True".toList || a.characters == "False".toList) = false := by
    rw [Bool.or_eq_false_iff, beq_eq_false_iff_ne, beq_eq_false_iff_ne]
    constructor
    · intro heq
      exact @hfree 'T' (by decide) (heq ▸ by decide)
    · intro heq
      exact @hfree 'F' (by decide) (heq ▸ by decide)
  have hletters : a.characters.any Char.isAlpha = false :=
    List.any_eq_false.mpr fun c hc => Bool.eq_false_iff.mp (isAlpha_of_isDataChar (hchars c hc))
  have hfunction : isFunction a.characters = false := by
    rw [isFunction, hletters, Bool.false_and, Bool.false_and]
  have hstroke : '=' ∉ a.characters := hfree (by decide)
  rw [ofChars, hvisible, hasEquation_eq_false hstroke, hboolean, isAssignment_eq_false hstroke,
    hfunction]
  rfl

/-- The canonical text of exact data is numeric for a number, a vector for a row of numbers, a
matrix for at least two rows, and of no known shape otherwise. -/
theorem ofText_print_data {e : Expr} (h : e.IsData) :
    (ofText (e.print none) = numeric ↔ e.IsScalar) ∧
    (ofText (e.print none) = vector ↔ e.IsRow) ∧
    (ofText (e.print none) = matrix ↔ e.IsGrid) ∧
    (ofText (e.print none) = unknown ↔ ¬ e.IsScalar ∧ ¬ e.IsRow ∧ ¬ e.IsGrid) := by
  have hscalar := (tellsApart_scalar h).isWhole_iff
  have hrow := (tellsApart_row h).isWhole_iff
  have hgrid := (tellsApart_grid h).isWhole_iff
  rw [ofText, ofChars_characters h]
  by_cases hg : e.IsGrid
  · have hr : ¬ e.IsRow := fun hr => hr.not_isGrid hg
    have hs : ¬ e.IsScalar := fun hs => hs.not_isGrid hg
    rw [if_pos (hgrid.mpr hg)]
    simp only [hg, hr, hs, reduceCtorEq, not_true_eq_false, and_false, and_self]
  rw [if_neg (mt hgrid.mp hg)]
  by_cases hr : e.IsRow
  · have hs : ¬ e.IsScalar := fun hs => hs.not_isRow hr
    rw [if_pos (hrow.mpr hr)]
    simp only [hg, hr, hs, reduceCtorEq, not_true_eq_false, false_and, and_false, and_self]
  rw [if_neg (mt hrow.mp hr)]
  by_cases hs : e.IsScalar
  · rw [if_pos (hscalar.mpr hs)]
    simp only [hg, hr, hs, reduceCtorEq, not_true_eq_false, false_and, and_self]
  · rw [if_neg (mt hscalar.mp hs)]
    simp only [hg, hr, hs, reduceCtorEq, not_false_eq_true, and_self]

/-- Rows of different lengths are a matrix. -/
theorem ofText_print_data_ragged :
    (Expr.list [.list [.exact ⟨-1, 2⟩, .exact ⟨3, 1⟩], .list [.exact ⟨7, 1⟩]]).IsData ∧
    ofText ((Expr.list [.list [.exact ⟨-1, 2⟩, .exact ⟨3, 1⟩], .list [.exact ⟨7, 1⟩]]).print none) =
      matrix := by
  have hdata :
      (Expr.list [.list [.exact ⟨-1, 2⟩, .exact ⟨3, 1⟩], .list [.exact ⟨7, 1⟩]]).IsData := by
    refine .list fun a ha => ?_
    fin_cases ha
    · refine .list fun b hb => ?_
      fin_cases hb <;> exact .exact _
    · refine .list fun b hb => ?_
      fin_cases hb
      exact .exact _
  refine ⟨hdata, (ofText_print_data hdata).2.2.1.mpr
    (isGrid_list_iff.mpr ⟨Nat.le_refl 2, fun a ha => ?_⟩)⟩
  fin_cases ha
  · refine isRow_list_iff.mpr ⟨List.cons_ne_nil _ _, fun b hb => ?_⟩
    fin_cases hb <;> exact ⟨_, rfl⟩
  · refine isRow_list_iff.mpr ⟨List.cons_ne_nil _ _, fun b hb => ?_⟩
    fin_cases hb
    exact ⟨_, rfl⟩

end Shape

end Reckoner
