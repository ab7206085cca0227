import Reckoner.Proofs.Grammar.Fitting
import Reckoner.Proofs.Grammar.Lexemes

/-!
# Neighbours

Not every token may follow every other one. No number and no truth value follows the end of an
operand, since only names and round brackets multiply without a sign. No relation follows another.
-/

namespace Reckoner

namespace Token

/-- A number or a truth value. -/
def isLeaf : Token → Bool
  | integer _ | decimal _ | boolean _ => true
  | _ => false

/-- An operand may end with the token. -/
def endsOperand : Token → Bool
  | integer _ | decimal _ | boolean _ | name _ | closing _ => true
  | _ => false

theorem isLeaf_of_isNumber {t : Token} (h : t.isNumber = true) : t.isLeaf = true := by
  cases t <;> first | rfl | cases h

theorem endsOperand_ofWord (s : String) : (ofWord s).endsOperand = true := by
  unfold ofWord
  split
  · rfl
  · split <;> rfl

/-- No number and no truth value stands directly behind an operand. -/
def Spaced : List Token → Prop
  | t :: u :: ts => (t.endsOperand = true → u.isLeaf = false) ∧ Spaced (u :: ts)
  | _ => True

theorem Spaced.tail {t : Token} {ts : List Token} (h : Spaced (t :: ts)) : Spaced ts := by
  cases ts with
  | nil => trivial
  | cons u ts => exact h.2

/-- A token may be put in front, unless it ends an operand and a leaf follows. -/
theorem Spaced.cons {t : Token} {ts : List Token} (h : Spaced ts)
    (ht : t.endsOperand = true → Grammar.headIs isLeaf ts = false) : Spaced (t :: ts) := by
  cases ts with
  | nil => trivial
  | cons u ts => exact ⟨ht, h⟩

/-- No number and no truth value stands behind the end of an operand. -/
theorem Spaced.headIs_isLeaf {t : Token} {ts : List Token} (h : Spaced (t :: ts))
    (ht : t.endsOperand = true) : Grammar.headIs isLeaf ts = false := by
  cases ts with
  | nil => rfl
  | cons u ts => exact h.1 ht

theorem Spaced.left {ts us : List Token} (h : Spaced (ts ++ us)) : Spaced ts := by
  induction ts with
  | nil => trivial
  | cons t ts ih =>
    cases ts with
    | nil => trivial
    | cons u ts => exact ⟨h.1, ih h.2⟩

theorem Spaced.right {ts us : List Token} (h : Spaced (ts ++ us)) : Spaced us := by
  induction ts with
  | nil => exact h
  | cons t ts ih => exact ih h.tail

/-- No relation stands directly behind another. -/
def Parted : List Token → Prop
  | t :: u :: ts => (t.isRelation = true → u.isRelation = false) ∧ Parted (u :: ts)
  | _ => True

theorem Parted.tail {t : Token} {ts : List Token} (h : Parted (t :: ts)) : Parted ts := by
  cases ts with
  | nil => trivial
  | cons u ts => exact h.2

/-- A token may be put in front, unless it is a relation and another follows. -/
theorem Parted.cons {t : Token} {ts : List Token} (h : Parted ts)
    (ht : t.isRelation = true → Grammar.headIs isRelation ts = false) : Parted (t :: ts) := by
  cases ts with
  | nil => trivial
  | cons u ts => exact ⟨ht, h⟩

end Token

namespace Grammar

/-- What is read is spaced, and a chain starts with no number and no truth value. -/
theorem Derives.spaced {φ : Phrase} {ts us : List Token} (h : Derives φ ts us)
    (hs : Token.Spaced us) (hu : headIs Token.isLeaf us = false) : Token.Spaced ts ∧
      match φ with
      | .sides .. | .summands .. | .factors .. | .moreArguments .. =>
        headIs Token.isLeaf ts = false
      | _ => True := by
  induction h with
  | expression _ _ iha ihc =>
    obtain ⟨hs, hu⟩ := ihc hs hu
    exact iha hs hu
  | sum _ _ iha ihc =>
    obtain ⟨hs, hu⟩ := ihc hs hu
    exact iha hs hu
  | product _ _ iha ihc =>
    obtain ⟨hs, hu⟩ := ihc hs hu
    exact iha hs hu
  | lastSide | lastSummand | lastFactor | lastArgument => exact ⟨hs, hu⟩
  | nextSide _ _ ihb ihc | nextSummand _ _ _ ihb ihc | nextFactor _ _ _ ihb ihc
  | nextArgument _ _ ihb ihc =>
    obtain ⟨hs, hu⟩ := ihc hs hu
    exact ⟨(ihb hs hu).1.cons nofun, rfl⟩
  | besideName _ _ ihb ihc | besideGroup _ _ ihb ihc =>
    obtain ⟨hs, hu⟩ := ihc hs hu
    exact ⟨(ihb hs hu).1, rfl⟩
  | minus _ ih | plus _ ih => exact ⟨(ih hs hu).1.cons nofun, trivial⟩
  | unsigned _ _ ih | base _ _ ih | plain _ _ ih => exact ih hs hu
  | raised _ _ iha ihb => exact iha ((ihb hs hu).1.cons nofun) rfl
  | call _ _ _ ihp iha =>
    exact ihp ((iha (hs.cons fun _ => hu) rfl).1.cons nofun) rfl
  | integer | decimal | boolean | name => exact ⟨hs.cons fun _ => hu, trivial⟩
  | group _ ih | braces _ ih => exact ⟨(ih (hs.cons fun _ => hu) rfl).1.cons nofun, trivial⟩
  | noArguments => exact ⟨hs, trivial⟩
  | arguments _ _ _ ihe ihs =>
    obtain ⟨hs, hu⟩ := ihs hs hu
    exact ihe hs hu

/-- A sum does not start with a relation. -/
theorem Derives.no_relation {e : Expr} {ts us : List Token} (h : Derives (.sum e) ts us) :
    headIs Token.isRelation ts = false := by
  have hs : headIs Token.startsOperand ts = true ∨ headIs Token.isSummandSign ts = true :=
    h.startsWell
  cases ts with
  | nil => rfl
  | cons t ts =>
    cases t with
    | relation f => rcases hs with hs | hs <;> cases hs
    | _ => rfl

/-- What is read parts its relations. -/
theorem Derives.parted {φ : Phrase} {ts us : List Token} (h : Derives φ ts us)
    (hs : Token.Parted us) : Token.Parted ts := by
  induction h with
  | expression _ _ iha ihb | sum _ _ iha ihb | product _ _ iha ihb | arguments _ _ _ iha ihb
  | besideName _ _ iha ihb | besideGroup _ _ iha ihb => exact iha (ihb hs)
  | nextSide hb _ ihb ihc => exact (ihb (ihc hs)).cons fun _ => hb.no_relation
  | nextSummand _ _ _ iha ihb | nextFactor _ _ _ iha ihb | nextArgument _ _ iha ihb =>
    exact (iha (ihb hs)).cons nofun
  | raised _ _ iha ihb => exact iha ((ihb hs).cons nofun)
  | call _ _ _ ihp iha => exact ihp ((iha (hs.cons nofun)).cons nofun)
  | minus _ ih | plus _ ih => exact (ih hs).cons nofun
  | group _ ih | braces _ ih => exact (ih (hs.cons nofun)).cons nofun
  | unsigned _ _ ih | base _ _ ih | plain _ _ ih => exact ih hs
  | lastSide | lastSummand | lastFactor | lastArgument | noArguments => exact hs
  | integer | decimal | boolean | name => exact hs.cons nofun

end Grammar

end Reckoner
