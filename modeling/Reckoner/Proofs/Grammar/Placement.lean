import Reckoner.Proofs.Expr.Regrouping
import Reckoner.Proofs.Grammar.Nesting

/-!
# Places of regrouped trees

Tokens stand in a place of some level when they are read there as a tree, whatever follows that
ends a phrase of this level, and the levels that this takes are counted along. Where `Fits` asks
for any tree with the same value, the tree is given here: behind `a+` the tokens of `b + c` are
read as a chain that goes on from `a`, which is how `join` puts the trees together.
-/

namespace Reckoner

open Reckoner.Expr Token

namespace Grammar

/-! ## Places -/

/-- The tokens are read as a phrase that ends with them. -/
def Spans (phrase : Expr → Phrase) (n k : Nat) (e : Expr) (ts : List Token) : Prop :=
  ∀ rest, Ends n rest → Nested k (phrase e) (ts ++ rest) rest

/-- The tokens are read as what a chain goes on with. -/
def Begins (phrase : Expr → Phrase) (chain : Expr → Expr → Phrase) (n k : Nat) (e : Expr)
    (ts : List Token) : Prop :=
  ∀ rest r us l, Ends n rest → Nested l (chain e r) rest us →
    Nested (max k l) (phrase r) (ts ++ rest) us

/-- In a place of the level the tokens are read as the tree, and `k` levels are needed. -/
def Stands (k : Nat) (e : Expr) (ts : List Token) : Nat → Prop
  | 0 => Spans .expression 0 k e ts
  | 1 => Begins .sum .summands 2 k e ts ∧
    ∀ a, Begins (.summands a) .summands 2 k (join .add a e) (.operation .add :: ts)
  | 2 => Begins .product .factors 3 k e ts ∧
    ∀ a, Begins (.factors a) .factors 3 k (join .multiply a e) (.operation .multiply :: ts)
  | 3 => Spans .unary 4 k e ts
  | 4 => Spans .power 4 k e ts
  | _ => Spans .application 5 k e ts

variable {a b c e : Expr} {ts ts' : List Token} {k l m n : Nat}

/-- A chain goes on behind a part of it. -/
theorem Begins.append {phrase : Expr → Phrase} {chain : Expr → Expr → Phrase} {t : Token}
    (h : Begins phrase chain n k a ts) (ht : t.endsAt n = true)
    (h' : Begins (chain a) chain n l b (t :: ts')) :
    Begins phrase chain n (max k l) b (ts ++ t :: ts') := by
  intro rest r us j hr hc
  have hends : Ends n (t :: (ts' ++ rest)) := ht
  have hread := h _ r us _ hends (h' rest r us j hr hc)
  rw [List.append_assoc]
  exact hread.of_eq (Nat.max_assoc k l j).symm

/-- Behind an operand of another level a chain goes on with the operand alone. -/
theorem join_of_level_ne {f : Operation} (h : e.level ≠ f.level) (a : Expr) :
    join f a e = .binary f a e := by
  cases e with
  | binary g b c => exact if_neg h
  | _ => rfl

/-- A power without a sign is an operand. -/
theorem Nested.unary_of_power {us : List Token} (h : Nested k (.power e) ts us) :
    Nested k (.unary e) ts us := .unsigned h.derives.no_sign h

/-- A place of a power takes what may be called. -/
theorem Stands.power (h : Stands k e ts 5) : Stands k e ts 4 :=
  fun rest hr => .base hr.no_power (h rest (hr.mono (by decide)))

/-- A place of a signed operand takes a power. -/
theorem Stands.signed (h : Stands k e ts 4) : Stands k e ts 3 :=
  fun rest hr => (h rest hr).unary_of_power

/-- A place of a factor takes whatever is no product itself. -/
theorem Stands.product (h : Stands k e ts 3) (hl : e.level ≠ 2) : Stands k e ts 2 := by
  refine ⟨fun rest r us l hr hc => .product (h rest (hr.mono (by decide))) hc, fun a => ?_⟩
  rw [join_of_level_ne hl]
  exact fun rest r us l hr hc => .nextFactor rfl (h rest (hr.mono (by decide))) hc

/-- What starts a product is a whole product where one ends. -/
theorem Stands.whole_product (h : Stands k e ts 2) : Spans .product 2 k e ts := by
  intro rest hr
  have hread := h.1 rest e rest 0 (hr.mono (by decide)) (.lastFactor hr.no_factor)
  exact hread.of_eq (Nat.max_zero k)

/-- A place of a summand takes whatever is no sum itself. -/
theorem Stands.sum (h : Stands k e ts 2) (hl : e.level ≠ 1) : Stands k e ts 1 := by
  refine ⟨fun rest r us l hr hc => .sum (h.whole_product rest hr) hc, fun a => ?_⟩
  rw [join_of_level_ne hl]
  exact fun rest r us l hr hc => .nextSummand rfl (h.whole_product rest hr) hc

/-- What starts a sum is a whole sum where one ends. -/
theorem Stands.whole_sum (h : Stands k e ts 1) : Spans .sum 1 k e ts := by
  intro rest hr
  have hread := h.1 rest e rest 0 (hr.mono (by decide)) (.lastSummand hr.no_summandSign)
  exact hread.of_eq (Nat.max_zero k)

/-- A place of an expression takes a sum. -/
theorem Stands.expression (h : Stands k e ts 1) : Stands k e ts 0 := by
  intro rest hr
  have hsum := h.whole_sum rest (hr.mono (by decide))
  have hread := Nested.expression hsum (.lastSide hr.no_relation)
  exact hread.of_eq (Nat.max_zero k)

/-- What stands in a tight place stands in every looser one, but for the places of its own
chains. -/
theorem Stands.loosen (h : Stands k e ts n) (hmn : m ≤ n)
    (hl : ∀ j, m ≤ j → j < n → j ≤ 2 → e.level ≠ j) : Stands k e ts m := by
  have step (j : Nat) (hj : j ≤ 2 → e.level ≠ j) (h : Stands k e ts (j + 1)) : Stands k e ts j := by
    match j, h with
    | 0, h => exact h.expression
    | 1, h => exact h.sum (hj (by decide))
    | 2, h => exact h.product (hj (by decide))
    | 3, h => exact h.signed
    | 4, h => exact h.power
    | _ + 5, h => exact h
  induction hmn with
  | refl => exact h
  | step hmn ih =>
    refine ih (step _ (hl _ hmn (Nat.lt_succ_self _)) h) fun j hmj hjn => ?_
    exact hl j hmj (Nat.lt_succ_of_lt hjn)

/-- In round brackets every tree stands anywhere, but for the places of its own chains. -/
theorem Stands.group (h : Stands k e ts 0) (hl : ∀ j, n ≤ j → j ≤ 2 → e.level ≠ j) :
    Stands (k + 1) e (.opening .round :: (ts ++ [.closing .round])) n := by
  have happlication : Stands (k + 1) e (.opening .round :: (ts ++ [.closing .round])) (n + 5) := by
    intro rest hr
    have hg := h (.closing .round :: rest) rfl
    rw [List.cons_append, List.append_assoc]
    exact .plain (.group hg) fun _ => hr.no_call
  exact happlication.loosen (by omega) fun j hj _ => hl j hj

/-! ## What operations make of operands -/

/-- Chains may be put together from either end. -/
theorem join_join (f : Operation) (a b c : Expr) :
    join f a (join f b c) = join f (join f a b) c := by
  have hchain (c : Expr) : join f a (.binary f b c) = .binary f (join f a b) c := if_pos rfl
  fun_induction join f b c with
  | case1 g c d heq ih =>
    rw [join, if_pos heq, ih, join, if_pos heq]
  | case2 g c d hne =>
    rw [hchain, join, if_neg hne]
  | case3 c hc =>
    rw [hchain]
    cases c with
    | binary g c d => exact absurd rfl (hc g c d)
    | _ => rfl

/-- Two sums with a plus sign between them are one chain. -/
theorem Stands.add (ha : Stands k a ts 1) (hb : Stands l b ts' 1) :
    Stands (max k l) (join .add a b) (ts ++ .operation .add :: ts') 1 := by
  refine ⟨ha.1.append rfl (hb.2 a), fun c => ?_⟩
  rw [join_join]
  exact (ha.2 c).append rfl (hb.2 (join .add c a))

/-- A further summand behind a minus sign. -/
theorem Stands.subtrahend (h : Stands k b ts 2) (a : Expr) :
    Begins (.summands a) .summands 2 k (.binary .subtract a b) (.operation .subtract :: ts) :=
  fun rest _ _ _ hr hc => .nextSummand rfl (h.whole_product rest hr) hc

/-- A difference of a sum and a product. -/
theorem Stands.subtract (ha : Stands k a ts 1) (hb : Stands l b ts' 2) :
    Stands (max k l) (.binary .subtract a b) (ts ++ .operation .subtract :: ts') 1 :=
  ⟨ha.1.append rfl (hb.subtrahend a), fun c => (ha.2 c).append rfl (hb.subtrahend (join .add c a))⟩

/-- Two products with a sign between them are one chain. -/
theorem Stands.multiply (ha : Stands k a ts 2) (hb : Stands l b ts' 2) :
    Stands (max k l) (join .multiply a b) (ts ++ .operation .multiply :: ts') 2 := by
  refine ⟨ha.1.append rfl (hb.2 a), fun c => ?_⟩
  rw [join_join]
  exact (ha.2 c).append rfl (hb.2 (join .multiply c a))

/-- A further factor behind a slash. -/
theorem Stands.divisor (h : Stands k b ts 4) (a : Expr) :
    Begins (.factors a) .factors 3 k (.binary .divide a b) (.operation .divide :: ts) :=
  fun rest _ _ _ hr hc => .nextFactor rfl (h rest (hr.mono (by decide))).unary_of_power hc

/-- A quotient by a power. -/
theorem Stands.divide (ha : Stands k a ts 2) (hb : Stands l b ts' 4) :
    Stands (max k l) (.binary .divide a b) (ts ++ .operation .divide :: ts') 2 :=
  ⟨ha.1.append rfl (hb.divisor a), fun c => (ha.2 c).append rfl (hb.divisor (join .multiply c a))⟩

/-- A power, whose exponent takes a level more. -/
theorem Stands.raise (ha : Stands k a ts 5) (hb : Stands l b ts' 4) :
    Stands (max k (l + 1)) (.binary .power a b) (ts ++ .operation .power :: ts') 4 := by
  intro rest hr
  rw [List.append_assoc]
  exact .raised (ha (.operation .power :: (ts' ++ rest)) rfl) (hb rest hr).unary_of_power

/-- A negation takes a level more. -/
theorem Stands.neg (ha : Stands k a ts 3) :
    Stands (k + 1) (.neg a) (.operation .subtract :: ts) 3 :=
  fun rest hr => .minus (ha rest hr)

/-- A comparison of two sums. -/
theorem Stands.compare (r : Relation) (ha : Stands k a ts 1) (hb : Stands l b ts' 1) :
    Stands (max k l) (.compare r a b) (ts ++ .relation r :: ts') 0 := by
  intro rest hr
  have hsecond := hb.whole_sum rest (hr.mono (by decide))
  have hfirst := ha.whole_sum (.relation r :: (ts' ++ rest)) rfl
  have hread := Nested.expression hfirst (.nextSide hsecond (.lastSide hr.no_relation))
  rw [List.append_assoc]
  exact hread.of_eq (by rw [Nat.max_zero])

/-- What stands on its own fits the tightest place. -/
theorem Stands.of_primary (h : ∀ rest, Nested k (.primary e) (ts ++ rest) rest) : Stands k e ts 5 :=
  fun rest hr => .plain (h rest) fun _ => hr.no_call

/-! ## Arguments -/

/-- The tokens are read as further arguments behind commas. -/
def StandMore (k : Nat) (es : List Expr) (ts : List Token) : Prop :=
  (∀ rest, Ends 0 rest → Ends 0 (ts ++ rest)) ∧ ∀ sofar b rest,
    Nested k (.moreArguments sofar (sofar ++ es)) (ts ++ .closing b :: rest) (.closing b :: rest)

/-- The tokens are read as arguments. -/
def StandArguments (k : Nat) (es : List Expr) (ts : List Token) : Prop :=
  ∀ b rest, Nested k (.arguments b es) (ts ++ .closing b :: rest) (.closing b :: rest)

variable {es : List Expr}

theorem StandMore.nil : StandMore 0 [] [] :=
  ⟨fun _ hr => hr, fun sofar b rest => by
    rw [List.append_nil]
    exact .lastArgument rfl⟩

/-- A comma and an argument in front of further ones. An argument takes a level more. -/
theorem StandMore.cons (h : Stands k e ts 0) (hs : StandMore l es ts') :
    StandMore (max (k + 1) l) (e :: es) (.comma :: ts ++ ts') := by
  refine ⟨fun rest _ => rfl, fun sofar b rest => ?_⟩
  have hfirst := h (ts' ++ .closing b :: rest) (hs.1 _ rfl)
  have hmore := hs.2 (sofar ++ [e]) b rest
  rw [List.append_assoc] at hmore
  rw [List.cons_append, List.cons_append, List.append_assoc]
  exact .nextArgument hfirst hmore

theorem StandArguments.nil : StandArguments 0 [] [] := fun _ _ => .noArguments

/-- A first argument in front of further ones. -/
theorem StandArguments.cons (h : Stands k e ts 0) (hs : StandMore l es ts') :
    StandArguments (max (k + 1) l) (e :: es) (ts ++ ts') := by
  intro b rest
  have hfirst := h (ts' ++ .closing b :: rest) (hs.1 _ rfl)
  rw [List.append_assoc]
  exact .arguments (hfirst.derives.no_closing b) hfirst (hs.2 [e] b rest)

/-- Arguments in brackets behind a name. -/
theorem StandArguments.call (s : String) (h : StandArguments k es ts) :
    Stands k (.call s es) (.name s :: .opening .round :: (ts ++ [.closing .round])) 5 := by
  intro rest _
  have hargs := h .round rest
  have hcall := Nested.call (s := s) rfl .name hargs
  simp only [List.cons_append, List.append_assoc]
  exact hcall.of_eq (Nat.zero_max k)

/-- Items in curly brackets. -/
theorem StandArguments.list (h : StandArguments k es ts) :
    Stands k (.list es) (.opening .curly :: (ts ++ [.closing .curly])) 5 := by
  intro rest hr
  have hitems := h .curly rest
  simp only [List.cons_append, List.append_assoc]
  exact .plain (.braces hitems) fun _ => hr.no_call

end Grammar

end Reckoner
