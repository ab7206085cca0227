import Reckoner.Proofs.Grammar.Fitting

/-!
# Square brackets and round ones

Square brackets hold arguments behind a name, and stand nowhere else in an expression. So round
brackets can be written in their place, and the same is read. Behind an operand that is not called
a round bracket would open a factor, but there no square bracket can stand.
-/

namespace Reckoner

/-- The round bracket in the place of the square one. -/
def Bracket.rounded : Bracket → Bracket
  | square => round
  | b => b

namespace Token

/-- The token with a round bracket in the place of a square one. -/
def rounded : Token → Token
  | opening b => opening b.rounded
  | closing b => closing b.rounded
  | t => t

/-- An opening square bracket. -/
def opensSquare : Token → Bool
  | opening .square => true
  | _ => false

/-- A bracket calls a name in either shape. -/
theorem opensCall_rounded (t : Token) : t.rounded.opensCall = t.opensCall := by
  cases t with
  | opening b => cases b <;> rfl
  | _ => rfl

/-- Relations have no shape. -/
theorem isRelation_rounded (t : Token) : t.rounded.isRelation = t.isRelation := by
  cases t <;> rfl

/-- Signs of a sum have no shape. -/
theorem isSummandSign_rounded (t : Token) : t.rounded.isSummandSign = t.isSummandSign := by
  cases t <;> rfl

/-- The sign of a power has no shape. -/
theorem isPower_rounded (t : Token) :
    isSign (.operation .power) t.rounded = isSign (.operation .power) t := by
  cases t <;> rfl

/-- A comma has no shape. -/
theorem isComma_rounded (t : Token) : isSign .comma t.rounded = isSign .comma t := by
  cases t <;> rfl

/-- Only a square bracket could start a factor once it is round. -/
theorem startsFactor_rounded {t : Token} (h : t.opensSquare = false) :
    t.rounded.startsFactor = t.startsFactor := by
  cases t with
  | opening b => cases b <;> first | rfl | cases h
  | _ => rfl

end Token

namespace Grammar

/-- What is read where brackets are round. -/
def Phrase.rounded : Phrase → Phrase
  | arguments b es => arguments b.rounded es
  | φ => φ

/-- What stands between operators, and may be called. -/
def Phrase.isPrimary : Phrase → Bool
  | primary _ => true
  | _ => false

/-- An exchange that keeps a property of the first token keeps it of the tokens. -/
theorem headIs_map {ts : List Token} {f : Token → Token} {p q : Token → Bool}
    (h : ∀ t ∈ ts.head?, q (f t) = p t) : headIs q (ts.map f) = headIs p ts := by
  cases ts with
  | nil => rfl
  | cons t ts => exact h t rfl

/-- What is read is read where brackets are round, as long as no square one follows that might be
taken for a factor. A chain starts with no square bracket. -/
theorem Derives.rounded {φ : Phrase} {ts us : List Token} (h : Derives φ ts us)
    (hu : φ.isPrimary = false → headIs Token.opensSquare us = false) :
    Derives φ.rounded (ts.map Token.rounded) (us.map Token.rounded) ∧
      match φ with
      | .sides .. | .summands .. | .factors .. | .moreArguments .. =>
        headIs Token.opensSquare ts = false
      | _ => True := by
  induction h with
  | expression _ _ iha ihc =>
    obtain ⟨hc, hs⟩ := ihc hu
    exact ⟨.expression (iha fun _ => hs).1 hc, trivial⟩
  | sum _ _ iha ihc =>
    obtain ⟨hc, hs⟩ := ihc hu
    exact ⟨.sum (iha fun _ => hs).1 hc, trivial⟩
  | product _ _ iha ihc =>
    obtain ⟨hc, hs⟩ := ihc hu
    exact ⟨.product (iha fun _ => hs).1 hc, trivial⟩
  | lastSide hr =>
    exact ⟨.lastSide ((headIs_map fun t _ => t.isRelation_rounded).trans hr), hu rfl⟩
  | lastSummand hr =>
    exact ⟨.lastSummand ((headIs_map fun t _ => t.isSummandSign_rounded).trans hr), hu rfl⟩
  | @lastFactor a ts hr =>
    refine ⟨.lastFactor ((headIs_map fun t ht => ?_).trans hr), hu rfl⟩
    refine Token.startsFactor_rounded ?_
    have hsquare := hu rfl
    rwa [headIs, ht, Option.any_some] at hsquare
  | nextSide _ _ ihb ihc =>
    obtain ⟨hc, hs⟩ := ihc hu
    exact ⟨.nextSide (ihb fun _ => hs).1 hc, rfl⟩
  | nextSummand hf _ _ ihb ihc =>
    obtain ⟨hc, hs⟩ := ihc hu
    exact ⟨.nextSummand hf (ihb fun _ => hs).1 hc, rfl⟩
  | nextFactor hf _ _ ihb ihc =>
    obtain ⟨hc, hs⟩ := ihc hu
    exact ⟨.nextFactor hf (ihb fun _ => hs).1 hc, rfl⟩
  | besideName _ _ ihb ihc =>
    obtain ⟨hc, hs⟩ := ihc hu
    exact ⟨.besideName (ihb fun _ => hs).1 hc, rfl⟩
  | besideGroup _ _ ihb ihc =>
    obtain ⟨hc, hs⟩ := ihc hu
    exact ⟨.besideGroup (ihb fun _ => hs).1 hc, rfl⟩
  | minus _ ih => exact ⟨.minus (ih hu).1, trivial⟩
  | plus _ ih => exact ⟨.plus (ih hu).1, trivial⟩
  | unsigned hr _ ih =>
    exact ⟨.unsigned ((headIs_map fun t _ => t.isSummandSign_rounded).trans hr) (ih hu).1, trivial⟩
  | base hr _ ih =>
    exact ⟨.base ((headIs_map fun t _ => t.isPower_rounded).trans hr) (ih hu).1, trivial⟩
  | raised _ _ iha ihb => exact ⟨.raised (iha fun _ => rfl).1 (ihb hu).1, trivial⟩
  | plain _ hfree ih =>
    refine ⟨.plain (ih nofun).1 fun he => ?_, trivial⟩
    exact (headIs_map fun t _ => t.opensCall_rounded).trans (hfree he)
  | @call s es b ts us vs hb _ _ ihp iha =>
    have hround : b.rounded = .round := by cases b <;> first | rfl | cases hb
    have hprimary := (ihp nofun).1
    have harguments := (iha fun _ => rfl).1
    refine ⟨.call (b := b.rounded) ?_ hprimary harguments, trivial⟩
    rw [hround]
    rfl
  | integer => exact ⟨.integer, trivial⟩
  | decimal => exact ⟨.decimal, trivial⟩
  | boolean => exact ⟨.boolean, trivial⟩
  | name => exact ⟨.name, trivial⟩
  | group _ ih => exact ⟨.group (ih fun _ => rfl).1, trivial⟩
  | braces _ ih => exact ⟨.braces (ih fun _ => rfl).1, trivial⟩
  | noArguments => exact ⟨.noArguments, trivial⟩
  | arguments _ he _ ihe ihs =>
    obtain ⟨hs, hsquare⟩ := ihs hu
    have hexpression := (ihe fun _ => hsquare).1
    exact ⟨.arguments (hexpression.no_closing _) hexpression hs, trivial⟩
  | lastArgument hr =>
    exact ⟨.lastArgument ((headIs_map fun t _ => t.isComma_rounded).trans hr), hu rfl⟩
  | nextArgument _ _ ihe ihs =>
    obtain ⟨hs, hsquare⟩ := ihs hu
    exact ⟨.nextArgument (ihe fun _ => hsquare).1 hs, rfl⟩

end Grammar

end Reckoner
