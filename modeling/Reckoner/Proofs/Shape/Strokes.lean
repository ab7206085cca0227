import Reckoner.Expr.Printer
import Reckoner.Proofs.Decimal.Canonical
import Reckoner.Proofs.Engine.Preservation
import Reckoner.Proofs.Grammar.Legibility
import Reckoner.Proofs.Validation.Blanks
import Reckoner.Shape.Pattern

/-!
# Equality strokes

An assignment has the shape of a letter with a single equality stroke behind it. No text that is
read starts like that, since no token is a single stroke. Neither does a text that is printed: names
and numbers have no strokes, so every stroke belongs to the sign of a relation.
-/

namespace Reckoner

namespace Text

/-- Every equality stroke belongs to the sign of a relation. -/
inductive Paired : List Char → Prop where
  | nil : Paired []
  | other {c : Char} {s : List Char} : c ≠ '=' → Paired s → Paired (c :: s)
  | sign (f : Relation) {s : List Char} : Paired s → Paired (f.sign.toList ++ s)

variable {s r : List Char}

/-- Without a stroke all of them belong to signs. -/
theorem paired_of_not_mem (h : '=' ∉ s) : Paired s := by
  induction s with
  | nil => exact .nil
  | cons c s ih =>
    rw [List.mem_cons, not_or] at h
    exact .other (Ne.symm h.1) (ih h.2)

theorem Paired.append (hs : Paired s) (hr : Paired r) : Paired (s ++ r) := by
  induction hs with
  | nil => exact hr
  | other hc _ ih => exact .other hc ih
  | sign f _ ih =>
    rw [List.append_assoc]
    exact .sign f ih

/-- The sign of a relation is paired. -/
theorem paired_sign (f : Relation) : Paired f.sign.toList := by
  simpa only [List.append_nil] using Paired.sign f .nil

/-- Without its blanks a text has the same strokes. -/
theorem Paired.dropBlanks (h : Paired s) : Paired (dropBlanks s) := by
  induction h with
  | nil => exact .nil
  | @other c s hc _ ih =>
    rw [Text.dropBlanks, List.filter_cons]
    split
    · exact .other hc ih
    · exact ih
  | sign f _ ih =>
    have hvisible : Text.dropBlanks f.sign.toList = f.sign.toList := by
      cases f <;> rfl
    rw [dropBlanks_append, hvisible]
    exact .sign f ih

/-- A letter is not followed by a single stroke. -/
theorem Paired.isAssignment_eq (h : Paired s) : Shape.isAssignment s = false := by
  unfold Shape.isAssignment
  split
  · rename_i c d rest
    refine Bool.eq_false_iff.mpr fun htrue => ?_
    rw [Bool.and_eq_true, Bool.and_eq_true, bne_iff_ne] at htrue
    obtain ⟨⟨hc, hd⟩, -⟩ := htrue
    generalize hs : c :: '=' :: d :: rest = s at h
    cases h with
    | nil => cases hs
    | sign f _ => cases f <;> cases hs <;> cases hc
    | other _ h =>
      obtain ⟨-, rfl⟩ := List.cons.inj hs
      generalize hr : '=' :: d :: rest = r at h
      cases h with
      | nil => cases hr
      | sign f _ => cases f <;> cases hr; exact hd rfl
      | other hne _ => exact hne (List.cons.inj hr).1.symm
  · rfl

end Text

/-! ## Texts that are read -/

/-- Behind a letter the lexer takes a pair of strokes only. -/
theorem Shape.isAssignment_of_scanAll {s : List Char} (h : (Token.scanAll s).2 = none) :
    isAssignment s = false := by
  unfold isAssignment
  split
  · rename_i c d rest
    refine Bool.eq_false_iff.mpr fun htrue => ?_
    rw [Bool.and_eq_true, Bool.and_eq_true, bne_iff_ne] at htrue
    obtain ⟨⟨hc, hd⟩, -⟩ := htrue
    have hstart : Token.isWordStart c = true := by rw [Token.isWordStart, hc, Bool.true_or]
    have hword : Token.scan c ('=' :: d :: rest) =
        .ok (Token.ofWord (String.ofList [c]), '=' :: d :: rest) := by
      rw [Token.scan, if_neg (Bool.eq_false_iff.mp (Token.isWordStart_not_digit hstart)),
        if_pos hstart]
      rfl
    have hstroke : Token.scan '=' (d :: rest) = .error .singleEquals := by
      rw [Token.scan_eq_scanSign (by decide) (by decide), Token.scanSign]
      · rfl
      · rintro _ heq
        exact hd (List.cons.inj heq).1
    rw [Token.scanAll_cons (Token.isBlank_of_goesOn ?_) hword,
      Token.scanAll_error (by decide) hstroke] at h
    · cases h
    · rw [Token.goesOn, Token.isWord_of_isWordStart hstart, Bool.true_or]
  · rfl

/-! ## Texts that are printed -/

namespace Decimal

variable {s : List Char}

/-- A numeral has no stroke. -/
theorem unstroked_of_isNumeral (h : IsNumeral s) : '=' ∉ s := by
  obtain ⟨m, rfl, hm, -⟩ := h
  intro hmem
  exact absurd (Token.isNumeric_of_mem hm hmem) (by decide)

/-- A minus sign adds no stroke. -/
theorem unstroked_signed (h : '=' ∉ s) (negative : Bool) : '=' ∉ (signed negative s).toList := by
  rw [signed, String.toList_ofList]
  split
  · rw [List.mem_cons, not_or]
    exact ⟨by decide, h⟩
  · exact h

/-- A rounded double is written without a stroke. -/
theorem unstroked_rounded (x : Float) (places : Nat) : '=' ∉ (rounded x places).toList := by
  unfold rounded
  split
  · decide
  · exact unstroked_signed (by decide) _
  · dsimp only
    split
    · exact unstroked_signed
        (unstroked_of_isNumeral (isNumeral_exponent (digital_scientificPlaces ..).trim _)) _
    · split
      · decide
      · exact unstroked_signed
          (unstroked_of_isNumeral (isNumeral_text (digital_fixedPlaces ..).trim)) _

/-- A double is written without a stroke. -/
theorem unstroked_canonical (x : Float) : '=' ∉ (canonical x).toList := by
  unfold canonical
  split
  · split
    · exact unstroked_rounded x 15
    · exact unstroked_signed (unstroked_of_isNumeral (isNumeral_text (digital_pointed _))) _
  · exact unstroked_rounded x 1

/-- An integer is written without a stroke. -/
theorem unstroked_toString (n : Int) : '=' ∉ (toString n).toList := by
  obtain ⟨negative, k, hk⟩ := exists_toString n
  rw [hk, List.mem_append, not_or]
  refine ⟨by cases negative <;> decide, fun h => ?_⟩
  have hdigit := Nat.isDigit_of_mem_toDigits (by decide) (by decide) h
  exact absurd hdigit (by decide)

end Decimal

namespace Expr

open Decimal
open Text (Paired paired_of_not_mem paired_sign)

/-- The name has no stroke. -/
abbrev Unstroked (name : String) : Prop := '=' ∉ name.toList

variable {s t : String} {e c : Expr}

theorem paired_append (hs : Paired s.toList) (ht : Paired t.toList) : Paired (s ++ t).toList := by
  rw [String.toList_append]
  exact hs.append ht

/-- Brackets keep a text paired. -/
theorem paired_grouped (hs : Paired s.toList) (needed : Bool) :
    Paired (grouped needed s).toList := by
  unfold grouped
  split
  · exact paired_append (paired_append (paired_of_not_mem (by decide)) hs)
      (paired_of_not_mem (by decide))
  · exact hs

/-- Commas keep texts paired. -/
theorem paired_intercalate {texts : List String} (h : ∀ t ∈ texts, Paired t.toList) :
    Paired (String.intercalate "," texts).toList := by
  induction texts with
  | nil => exact .nil
  | cons s texts ih =>
    rw [List.forall_mem_cons] at h
    cases texts with
    | nil =>
      rw [String.intercalate_singleton]
      exact h.1
    | cons t texts =>
      rw [String.intercalate_cons_cons]
      exact paired_append (paired_append h.1 (paired_of_not_mem (by decide))) (ih h.2)

/-- A fraction is paired. -/
theorem paired_fraction (q : Fraction) : Paired q.text.toList := by
  unfold Fraction.text
  have hnum := paired_of_not_mem (unstroked_toString q.num)
  have hden := paired_of_not_mem (unstroked_toString q.den)
  split
  · exact hnum
  · exact paired_append (paired_append hnum (paired_of_not_mem (by decide))) hden

/-- A double is paired, rounded or not. -/
theorem paired_realText (places : Option Nat) (x : Float) : Paired (realText places x).toList := by
  cases places with
  | none => exact paired_of_not_mem (unstroked_canonical x)
  | some n => exact paired_of_not_mem (unstroked_rounded x n)

/-- A negated fraction is paired. -/
theorem paired_negatedText (places : Option Nat) (q : Fraction) :
    Paired (negatedText places q).toList := by
  unfold negatedText
  split
  · exact paired_fraction _
  · exact paired_realText _ _

/-- An operand, the sign of an operation, and another operand. -/
theorem paired_operation (f : Operation) (hs : Paired s.toList) (ht : Paired t.toList) :
    Paired (s ++ f.sign ++ t).toList := by
  refine paired_append (paired_append hs (paired_of_not_mem ?_)) ht
  cases f <;> decide

mutual

/-- In the text of a tree whose names have no stroke, every stroke belongs to the sign of a
relation. -/
theorem paired_print (places : Option Nat) :
    ∀ e, Named Unstroked e → Paired (print places e).toList
  | .exact q, _ => by
    rw [print]
    exact paired_fraction q
  | .real x, _ => by
    rw [print]
    exact paired_realText places x
  | .symbol name, .symbol hname => by
    rw [print]
    exact paired_of_not_mem hname
  | .boolean t, _ => by
    cases t with
    | true => rw [print]; exact paired_of_not_mem (by decide)
    | false => rw [print]; exact paired_of_not_mem (by decide)
  | .neg a, .neg ha => by
    rw [print]
    have hoperand := paired_grouped (paired_print places a ha)
    exact paired_append (paired_of_not_mem (by decide)) (hoperand _)
  | .binary f a b, .binary ha hb => by
    have hleft := paired_print places a ha
    have hright := paired_print places b hb
    cases f with
    | multiply =>
      rw [print]
      exact paired_operation .multiply (paired_grouped hleft _) (paired_grouped hright _)
    | subtract =>
      rw [print]
      exact paired_operation .subtract (paired_grouped hleft _) (paired_grouped hright _)
    | divide =>
      rw [print]
      exact paired_operation .divide (paired_grouped hleft _) (paired_grouped hright _)
    | power =>
      rw [print]
      exact paired_operation .power (paired_grouped hleft _) (paired_grouped hright _)
    | add =>
      cases b with
      | neg b =>
        cases hb with
        | neg hb =>
          rw [print]
          exact paired_operation .subtract (paired_grouped hleft _)
            (paired_grouped (paired_print places b hb) _)
      | exact q =>
        rw [print]
        split
        · exact paired_operation .subtract (paired_grouped hleft _) (paired_negatedText places q)
        · exact paired_operation .add (paired_grouped hleft _) (paired_fraction q)
      | real x =>
        rw [print]
        split
        · exact paired_operation .subtract (paired_grouped hleft _) (paired_realText places _)
        · exact paired_operation .add (paired_grouped hleft _) (paired_realText places x)
      | _ =>
        rw [print]
        · exact paired_operation .add (paired_grouped hleft _) (paired_grouped hright _)
        all_goals exact fun _ h => by cases h
  | .compare f a b, .compare ha hb => by
    rw [print]
    refine paired_append (paired_append (paired_grouped (paired_print places a ha) _) ?_)
      (paired_grouped (paired_print places b hb) _)
    exact paired_sign f
  | .call name as, .call hname has => by
    rw [print]
    exact paired_append (paired_append (paired_append (paired_of_not_mem hname)
      (paired_of_not_mem (by decide))) (paired_intercalate (paired_printAll places as has)))
      (paired_of_not_mem (by decide))
  | .list as, .list has => by
    rw [print]
    exact paired_append (paired_append (paired_of_not_mem (by decide))
      (paired_intercalate (paired_printAll places as has))) (paired_of_not_mem (by decide))

/-- Trees whose names have no strokes are written as paired texts. -/
theorem paired_printAll (places : Option Nat) :
    ∀ as : List Expr, (∀ a ∈ as, Named Unstroked a) → ∀ t ∈ printAll places as, Paired t.toList
  | [], _ => by
    rw [printAll]
    exact List.forall_mem_nil _
  | a :: as, has => by
    rw [List.forall_mem_cons] at has
    rw [printAll, List.forall_mem_cons]
    exact ⟨paired_print places a has.1, paired_printAll places as has.2⟩

end

/-- Names that can be read have no stroke. -/
theorem unstroked_of_isName (h : Token.isName s = true) : Unstroked s := by
  intro hmem
  unfold Token.isName at h
  split at h
  · cases h
  · rename_i c cs hs
    simp only [Bool.and_eq_true, List.all_eq_true] at h
    obtain ⟨⟨⟨hc, hcs⟩, -⟩, -⟩ := h
    rw [hs] at hmem
    rcases List.mem_cons.mp hmem with rfl | hmem
    · exact absurd hc (by decide)
    · exact absurd (hcs _ hmem) (by decide)

/-- Legible trees have names without strokes. -/
theorem Legible.unstroked (h : e.Legible) : Named Unstroked e := by
  induction h with
  | exact => exact .exact _
  | real => exact .real _
  | symbol hs => exact .symbol (unstroked_of_isName hs)
  | boolean t => exact .boolean t
  | neg _ ih => exact .neg ih
  | binary _ _ iha ihb => exact .binary iha ihb
  | compare _ _ iha ihb => exact .compare iha ihb
  | call hs _ ih => exact .call (unstroked_of_isName hs) ih
  | list _ ih => exact .list ih

/-- What is computed for a text has no names but those of the text. -/
theorem paired_simplify {before after : List String} (h : Grammar.parse s = .ok e)
    (hc : (simplify false e).run.run before = (.ok c, after)) (places : Option Nat) :
    Paired (c.print places).toList :=
  paired_print places c ((named_kept Unstroked).simplify (Grammar.legible_of_parse h).unstroked hc)

end Expr

end Reckoner
