import Reckoner.Expr.Grammar

/-!
# Derivations

What the rules of the grammar read, without counting levels. A phrase names a rule and
what it reads; in a chain it also names what was read before. `Derives φ ts us` says that
the phrase is read off the tokens `ts` and leaves `us`. A chain stops only where its next
sign does not stand, and a name in front of a bracket is always called, so every
derivation is the one that the rules follow.
-/

namespace Reckoner

namespace Token

/-- The sign of a comparison. -/
def isRelation : Token → Bool
  | relation _ => true
  | _ => false

/-- The sign of a sum or a difference. -/
def isSummandSign : Token → Bool
  | operation .add | operation .subtract => true
  | _ => false

/-- A sign of multiplication or division, or what multiplies without a sign. -/
def startsFactor : Token → Bool
  | operation .multiply | operation .divide | name _ | opening .round => true
  | _ => false

/-- A name. -/
def isSymbol : Token → Bool
  | name _ => true
  | _ => false

/-- A bracket that holds arguments behind a name. -/
def opensCall : Token → Bool
  | opening .round | opening .square => true
  | _ => false

end Token

namespace Expr

/-- The name of a symbol. -/
def symbolName? : Expr → Option String
  | symbol name => some name
  | _ => none

/-- Only the symbol has the name. -/
theorem symbolName?_eq_some {e : Expr} {name : String} :
    e.symbolName? = some name ↔ e = symbol name := by
  cases e <;> simp [symbolName?]

end Expr

namespace Grammar

/-- The first token has a property. -/
def headIs (p : Token → Bool) (ts : List Token) : Bool := ts.head?.any p

@[simp] theorem headIs_nil (p : Token → Bool) : headIs p [] = false := rfl

@[simp] theorem headIs_cons (p : Token → Bool) (t : Token) (ts : List Token) :
    headIs p (t :: ts) = p t := rfl

/-- What a rule reads. A chain continues what was read before it. -/
inductive Phrase where
  | expression (e : Expr)
  | sides (sofar e : Expr)
  | sum (e : Expr)
  | summands (sofar e : Expr)
  | product (e : Expr)
  | factors (sofar e : Expr)
  | unary (e : Expr)
  | power (e : Expr)
  | application (e : Expr)
  | primary (e : Expr)
  | arguments (bracket : Bracket) (es : List Expr)
  | moreArguments (sofar es : List Expr)

/-- The phrase is read off the first tokens and leaves the second. -/
inductive Derives : Phrase → List Token → List Token → Prop where
  | expression {a e ts us vs} :
    Derives (.sum a) ts us → Derives (.sides a e) us vs → Derives (.expression e) ts vs
  | lastSide {a ts} : headIs Token.isRelation ts = false → Derives (.sides a a) ts ts
  | nextSide {a b e f ts us vs} :
    Derives (.sum b) ts us → Derives (.sides (.compare f a b) e) us vs →
      Derives (.sides a e) (.relation f :: ts) vs
  | sum {a e ts us vs} :
    Derives (.product a) ts us → Derives (.summands a e) us vs → Derives (.sum e) ts vs
  | lastSummand {a ts} : headIs Token.isSummandSign ts = false → Derives (.summands a a) ts ts
  | nextSummand {a b e f ts us vs} : (Token.operation f).isSummandSign →
    Derives (.product b) ts us → Derives (.summands (.binary f a b) e) us vs →
      Derives (.summands a e) (.operation f :: ts) vs
  | product {a e ts us vs} :
    Derives (.unary a) ts us → Derives (.factors a e) us vs → Derives (.product e) ts vs
  | lastFactor {a ts} : headIs Token.startsFactor ts = false → Derives (.factors a a) ts ts
  | nextFactor {a b e f ts us vs} : (Token.operation f).startsFactor →
    Derives (.unary b) ts us → Derives (.factors (.binary f a b) e) us vs →
      Derives (.factors a e) (.operation f :: ts) vs
  | besideName {a b e s ts us vs} :
    Derives (.power b) (.name s :: ts) us → Derives (.factors (.binary .multiply a b) e) us vs →
      Derives (.factors a e) (.name s :: ts) vs
  | besideGroup {a b e ts us vs} : Derives (.power b) (.opening .round :: ts) us →
    Derives (.factors (.binary .multiply a b) e) us vs →
      Derives (.factors a e) (.opening .round :: ts) vs
  | minus {e ts us} :
    Derives (.unary e) ts us → Derives (.unary (.neg e)) (.operation .subtract :: ts) us
  | plus {e ts us} : Derives (.unary e) ts us → Derives (.unary e) (.operation .add :: ts) us
  | unsigned {e ts us} : headIs Token.isSummandSign ts = false →
    Derives (.power e) ts us → Derives (.unary e) ts us
  | base {e ts us} : headIs (Token.isSign (.operation .power)) us = false →
    Derives (.application e) ts us → Derives (.power e) ts us
  | raised {a b ts us vs} : Derives (.application a) ts (.operation .power :: us) →
    Derives (.unary b) us vs → Derives (.power (.binary .power a b)) ts vs
  | plain {e ts us} : Derives (.primary e) ts us →
    (e.symbolName?.isSome → headIs Token.opensCall us = false) → Derives (.application e) ts us
  | call {s es b ts us vs} : (Token.opening b).opensCall →
    Derives (.primary (.symbol s)) ts (.opening b :: us) →
      Derives (.arguments b es) us (.closing b :: vs) → Derives (.application (.call s es)) ts vs
  | integer {n ts} : Derives (.primary (.ofInt n)) (.integer n :: ts) ts
  | decimal {x ts} : Derives (.primary (.real x)) (.decimal x :: ts) ts
  | boolean {b ts} : Derives (.primary (.boolean b)) (.boolean b :: ts) ts
  | name {s ts} : Derives (.primary (.symbol s)) (.name s :: ts) ts
  | group {e ts us} : Derives (.expression e) ts (.closing .round :: us) →
    Derives (.primary e) (.opening .round :: ts) us
  | braces {es ts us} : Derives (.arguments .curly es) ts (.closing .curly :: us) →
    Derives (.primary (.list es)) (.opening .curly :: ts) us
  | noArguments {b ts} : Derives (.arguments b []) (.closing b :: ts) (.closing b :: ts)
  | arguments {b e es ts us vs} : headIs (Token.isSign (.closing b)) ts = false →
    Derives (.expression e) ts us → Derives (.moreArguments [e] es) us vs →
      Derives (.arguments b es) ts vs
  | lastArgument {es ts} : headIs (Token.isSign .comma) ts = false →
    Derives (.moreArguments es es) ts ts
  | nextArgument {sofar es e ts us vs} : Derives (.expression e) ts us →
    Derives (.moreArguments (sofar ++ [e]) es) us vs →
      Derives (.moreArguments sofar es) (.comma :: ts) vs

/-- The phrase continues a chain, so it may read nothing. -/
def Phrase.isChain : Phrase → Bool
  | .sides .. | .summands .. | .factors .. | .arguments .. | .moreArguments .. => true
  | _ => false

/-- Reading goes forward. -/
theorem Derives.length_le {φ : Phrase} {ts us : List Token} (h : Derives φ ts us) :
    us.length ≤ ts.length ∧ (φ.isChain = false → us.length < ts.length) := by
  induction h <;> simp_all only [Phrase.isChain, List.length_cons, forall_const, Bool.true_eq_false,
    false_imp_iff, and_true, Nat.le_refl] <;> omega

/-- What is no chain uses up a token. -/
theorem Derives.length_lt {φ : Phrase} {ts us : List Token} (h : Derives φ ts us)
    (hφ : φ.isChain = false) : us.length < ts.length := h.length_le.2 hφ

/-- What is left stands at the end of what is read. -/
theorem Derives.suffix {φ : Phrase} {ts us : List Token} (h : Derives φ ts us) : us <:+ ts := by
  induction h with
  | expression _ _ iha ihb | sum _ _ iha ihb | product _ _ iha ihb | arguments _ _ _ iha ihb =>
    exact ihb.trans iha
  | besideName _ _ iha ihb | besideGroup _ _ iha ihb => exact ihb.trans iha
  | nextSide _ _ iha ihb | nextSummand _ _ _ iha ihb | nextFactor _ _ _ iha ihb
  | nextArgument _ _ iha ihb => exact (ihb.trans iha).trans (List.suffix_cons _ _)
  | raised _ _ iha ihb => exact ihb.trans ((List.suffix_cons _ _).trans iha)
  | call _ _ _ ihp iha =>
    have hbehind := (List.suffix_cons _ _).trans iha
    exact hbehind.trans ((List.suffix_cons _ _).trans ihp)
  | minus _ ih | plus _ ih => exact ih.trans (List.suffix_cons _ _)
  | group _ ih | braces _ ih =>
    exact (List.suffix_cons _ _).trans (ih.trans (List.suffix_cons _ _))
  | unsigned _ _ ih | base _ _ ih | plain _ _ ih => exact ih
  | lastSide | lastSummand | lastFactor | lastArgument | noArguments => exact List.suffix_rfl
  | integer | decimal | boolean | name => exact List.suffix_cons _ _

end Grammar

end Reckoner
