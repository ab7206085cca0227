import Reckoner.Proofs.Grammar.Derivation

/-!
# Derivations with their levels

Expressions in brackets and the operands of signs and powers are read one level deeper. A
derivation therefore needs a number of levels below the one on which it starts, and `Nested k`
says that it needs `k` of them. Every derivation has such a number.
-/

namespace Reckoner.Grammar

/-- The phrase is read off the first tokens, leaves the second, and goes down the number of
levels. -/
inductive Nested : Nat → Phrase → List Token → List Token → Prop where
  | expression {k l a e ts us vs} :
    Nested k (.sum a) ts us → Nested l (.sides a e) us vs → Nested (max k l) (.expression e) ts vs
  | lastSide {a ts} : headIs Token.isRelation ts = false → Nested 0 (.sides a a) ts ts
  | nextSide {k l a b e f ts us vs} :
    Nested k (.sum b) ts us → Nested l (.sides (.compare f a b) e) us vs →
      Nested (max k l) (.sides a e) (.relation f :: ts) vs
  | sum {k l a e ts us vs} :
    Nested k (.product a) ts us → Nested l (.summands a e) us vs → Nested (max k l) (.sum e) ts vs
  | lastSummand {a ts} : headIs Token.isSummandSign ts = false → Nested 0 (.summands a a) ts ts
  | nextSummand {k l a b e f ts us vs} : (Token.operation f).isSummandSign →
    Nested k (.product b) ts us → Nested l (.summands (.binary f a b) e) us vs →
      Nested (max k l) (.summands a e) (.operation f :: ts) vs
  | product {k l a e ts us vs} :
    Nested k (.unary a) ts us → Nested l (.factors a e) us vs → Nested (max k l) (.product e) ts vs
  | lastFactor {a ts} : headIs Token.startsFactor ts = false → Nested 0 (.factors a a) ts ts
  | nextFactor {k l a b e f ts us vs} : (Token.operation f).startsFactor →
    Nested k (.unary b) ts us → Nested l (.factors (.binary f a b) e) us vs →
      Nested (max k l) (.factors a e) (.operation f :: ts) vs
  | besideName {k l a b e s ts us vs} :
    Nested k (.power b) (.name s :: ts) us →
      Nested l (.factors (.binary .multiply a b) e) us vs →
        Nested (max k l) (.factors a e) (.name s :: ts) vs
  | besideGroup {k l a b e ts us vs} : Nested k (.power b) (.opening .round :: ts) us →
    Nested l (.factors (.binary .multiply a b) e) us vs →
      Nested (max k l) (.factors a e) (.opening .round :: ts) vs
  | minus {k e ts us} : Nested k (.unary e) ts us →
    Nested (k + 1) (.unary (.neg e)) (.operation .subtract :: ts) us
  | plus {k e ts us} : Nested k (.unary e) ts us →
    Nested (k + 1) (.unary e) (.operation .add :: ts) us
  | unsigned {k e ts us} : headIs Token.isSummandSign ts = false →
    Nested k (.power e) ts us → Nested k (.unary e) ts us
  | base {k e ts us} : headIs (Token.isSign (.operation .power)) us = false →
    Nested k (.application e) ts us → Nested k (.power e) ts us
  | raised {k l a b ts us vs} : Nested k (.application a) ts (.operation .power :: us) →
    Nested l (.unary b) us vs → Nested (max k (l + 1)) (.power (.binary .power a b)) ts vs
  | plain {k e ts us} : Nested k (.primary e) ts us →
    (e.symbolName?.isSome → headIs Token.opensCall us = false) → Nested k (.application e) ts us
  | call {k l s es b ts us vs} : (Token.opening b).opensCall →
    Nested k (.primary (.symbol s)) ts (.opening b :: us) →
      Nested l (.arguments b es) us (.closing b :: vs) →
        Nested (max k l) (.application (.call s es)) ts vs
  | integer {n ts} : Nested 0 (.primary (.ofInt n)) (.integer n :: ts) ts
  | decimal {x ts} : Nested 0 (.primary (.real x)) (.decimal x :: ts) ts
  | boolean {b ts} : Nested 0 (.primary (.boolean b)) (.boolean b :: ts) ts
  | name {s ts} : Nested 0 (.primary (.symbol s)) (.name s :: ts) ts
  | group {k e ts us} : Nested k (.expression e) ts (.closing .round :: us) →
    Nested (k + 1) (.primary e) (.opening .round :: ts) us
  | braces {k es ts us} : Nested k (.arguments .curly es) ts (.closing .curly :: us) →
    Nested k (.primary (.list es)) (.opening .curly :: ts) us
  | noArguments {b ts} : Nested 0 (.arguments b []) (.closing b :: ts) (.closing b :: ts)
  | arguments {k l b e es ts us vs} : headIs (Token.isSign (.closing b)) ts = false →
    Nested k (.expression e) ts us → Nested l (.moreArguments [e] es) us vs →
      Nested (max (k + 1) l) (.arguments b es) ts vs
  | lastArgument {es ts} : headIs (Token.isSign .comma) ts = false →
    Nested 0 (.moreArguments es es) ts ts
  | nextArgument {k l sofar es e ts us vs} : Nested k (.expression e) ts us →
    Nested l (.moreArguments (sofar ++ [e]) es) us vs →
      Nested (max (k + 1) l) (.moreArguments sofar es) (.comma :: ts) vs

variable {k l : Nat} {φ : Phrase} {ts us : List Token}

/-- The number of levels may be written in another way. -/
theorem Nested.of_eq (h : Nested k φ ts us) (hkl : k = l) : Nested l φ ts us := hkl ▸ h

/-- Without its levels it is a derivation. -/
theorem Nested.derives (h : Nested k φ ts us) : Derives φ ts us := by
  induction h with
  | expression _ _ iha ihc => exact .expression iha ihc
  | lastSide hr => exact .lastSide hr
  | nextSide _ _ ihb ihc => exact .nextSide ihb ihc
  | sum _ _ iha ihc => exact .sum iha ihc
  | lastSummand hr => exact .lastSummand hr
  | nextSummand hf _ _ ihb ihc => exact .nextSummand hf ihb ihc
  | product _ _ iha ihc => exact .product iha ihc
  | lastFactor hr => exact .lastFactor hr
  | nextFactor hf _ _ ihb ihc => exact .nextFactor hf ihb ihc
  | besideName _ _ ihb ihc => exact .besideName ihb ihc
  | besideGroup _ _ ihb ihc => exact .besideGroup ihb ihc
  | minus _ ih => exact .minus ih
  | plus _ ih => exact .plus ih
  | unsigned hr _ ih => exact .unsigned hr ih
  | base hr _ ih => exact .base hr ih
  | raised _ _ iha ihb => exact .raised iha ihb
  | plain _ hfree ih => exact .plain ih hfree
  | call hb _ _ ihp iha => exact .call hb ihp iha
  | integer => exact .integer
  | decimal => exact .decimal
  | boolean => exact .boolean
  | name => exact .name
  | group _ ih => exact .group ih
  | braces _ ih => exact .braces ih
  | noArguments => exact .noArguments
  | arguments hne _ _ ihe ihs => exact .arguments hne ihe ihs
  | lastArgument hr => exact .lastArgument hr
  | nextArgument _ _ ihe ihs => exact .nextArgument ihe ihs

/-- Every derivation goes down some number of levels. -/
theorem Derives.nested (h : Derives φ ts us) : ∃ k, Nested k φ ts us := by
  induction h with
  | expression _ _ iha ihc =>
    obtain ⟨k, ha⟩ := iha
    obtain ⟨l, hc⟩ := ihc
    exact ⟨_, .expression ha hc⟩
  | lastSide hr => exact ⟨0, .lastSide hr⟩
  | nextSide _ _ ihb ihc =>
    obtain ⟨k, hb⟩ := ihb
    obtain ⟨l, hc⟩ := ihc
    exact ⟨_, .nextSide hb hc⟩
  | sum _ _ iha ihc =>
    obtain ⟨k, ha⟩ := iha
    obtain ⟨l, hc⟩ := ihc
    exact ⟨_, .sum ha hc⟩
  | lastSummand hr => exact ⟨0, .lastSummand hr⟩
  | nextSummand hf _ _ ihb ihc =>
    obtain ⟨k, hb⟩ := ihb
    obtain ⟨l, hc⟩ := ihc
    exact ⟨_, .nextSummand hf hb hc⟩
  | product _ _ iha ihc =>
    obtain ⟨k, ha⟩ := iha
    obtain ⟨l, hc⟩ := ihc
    exact ⟨_, .product ha hc⟩
  | lastFactor hr => exact ⟨0, .lastFactor hr⟩
  | nextFactor hf _ _ ihb ihc =>
    obtain ⟨k, hb⟩ := ihb
    obtain ⟨l, hc⟩ := ihc
    exact ⟨_, .nextFactor hf hb hc⟩
  | besideName _ _ ihb ihc =>
    obtain ⟨k, hb⟩ := ihb
    obtain ⟨l, hc⟩ := ihc
    exact ⟨_, .besideName hb hc⟩
  | besideGroup _ _ ihb ihc =>
    obtain ⟨k, hb⟩ := ihb
    obtain ⟨l, hc⟩ := ihc
    exact ⟨_, .besideGroup hb hc⟩
  | minus _ ih =>
    obtain ⟨k, hk⟩ := ih
    exact ⟨k + 1, .minus hk⟩
  | plus _ ih =>
    obtain ⟨k, hk⟩ := ih
    exact ⟨k + 1, .plus hk⟩
  | unsigned hr _ ih =>
    obtain ⟨k, hk⟩ := ih
    exact ⟨k, .unsigned hr hk⟩
  | base hr _ ih =>
    obtain ⟨k, hk⟩ := ih
    exact ⟨k, .base hr hk⟩
  | raised _ _ iha ihb =>
    obtain ⟨k, ha⟩ := iha
    obtain ⟨l, hb⟩ := ihb
    exact ⟨_, .raised ha hb⟩
  | plain _ hfree ih =>
    obtain ⟨k, hk⟩ := ih
    exact ⟨k, .plain hk hfree⟩
  | call hb _ _ ihp iha =>
    obtain ⟨k, hp⟩ := ihp
    obtain ⟨l, ha⟩ := iha
    exact ⟨_, .call hb hp ha⟩
  | integer => exact ⟨0, .integer⟩
  | decimal => exact ⟨0, .decimal⟩
  | boolean => exact ⟨0, .boolean⟩
  | name => exact ⟨0, .name⟩
  | group _ ih =>
    obtain ⟨k, hk⟩ := ih
    exact ⟨k + 1, .group hk⟩
  | braces _ ih =>
    obtain ⟨k, hk⟩ := ih
    exact ⟨k, .braces hk⟩
  | noArguments => exact ⟨0, .noArguments⟩
  | arguments hne _ _ ihe ihs =>
    obtain ⟨k, he⟩ := ihe
    obtain ⟨l, hs⟩ := ihs
    exact ⟨_, .arguments hne he hs⟩
  | lastArgument hr => exact ⟨0, .lastArgument hr⟩
  | nextArgument _ _ ihe ihs =>
    obtain ⟨k, he⟩ := ihe
    obtain ⟨l, hs⟩ := ihs
    exact ⟨_, .nextArgument he hs⟩

end Reckoner.Grammar
