import Reckoner.Proofs.Expr.Meaning
import Reckoner.Proofs.Grammar.Derivation

/-!
# Operands and their places

Tokens fit a place of some level when the grammar reads them there as an expression that
agrees with the given one, whatever follows that ends a phrase of this level. The levels
are those of canonical texts, and tokens that fit a place fit every looser one. A place for
summands or factors is described by how a chain goes on behind the tokens: the sum `a + (b + c)`
is written without brackets and read from the left. A negative fraction counts as a sign
in front of an operand although its quotient is read outside the sign.
-/

namespace Reckoner

open Reckoner.Expr

namespace Token

/-- A phrase of the level ends in front of the token. -/
def endsAt (n : Nat) : Token → Bool
  | closing _ | comma => true
  | relation _ => 0 < n
  | operation f => f.level < n
  | _ => false

/-- An operand starts with the token. -/
def startsOperand : Token → Bool
  | integer _ | decimal _ | name _ | boolean _ | opening .round | opening .curly => true
  | _ => false

end Token

namespace Grammar

/-- A phrase of the level ends here. -/
def Ends (n : Nat) (ts : List Token) : Prop := ts.head?.all (Token.endsAt n) = true

/-- The first token decides where a phrase ends. -/
theorem ends_cons {n : Nat} {t : Token} {ts : List Token} : Ends n (t :: ts) ↔ t.endsAt n = true :=
  Iff.rfl

/-- A tighter phrase ends earlier. -/
theorem Ends.mono {m n : Nat} {ts : List Token} (h : Ends m ts) (hmn : m ≤ n) : Ends n ts := by
  cases ts with
  | nil => rfl
  | cons t ts =>
    rw [ends_cons] at h ⊢
    cases t <;> simp_all only [Token.endsAt, decide_eq_true_eq, Bool.false_eq_true] <;> omega

/-- A phrase does not go on with what cannot end it. -/
theorem Ends.headIs_eq_false {n : Nat} {ts : List Token} (h : Ends n ts) {p : Token → Bool}
    (hp : ∀ t, t.endsAt n = true → p t = false) : headIs p ts = false := by
  cases ts with
  | nil => rfl
  | cons t ts => exact hp t h

/-- An expression ends where no relation follows. -/
theorem Ends.no_relation {ts : List Token} (h : Ends 0 ts) :
    headIs Token.isRelation ts = false := by
  refine h.headIs_eq_false fun t ht => ?_
  cases t <;> first | rfl | simp [Token.endsAt] at ht

/-- A sum ends where none of its signs follows. -/
theorem Ends.no_summandSign {ts : List Token} (h : Ends 1 ts) :
    headIs Token.isSummandSign ts = false := by
  refine h.headIs_eq_false fun t ht => ?_
  cases t with
  | operation f => cases f <;> first | rfl | simp [Token.endsAt, Operation.level] at ht
  | _ => rfl

/-- A product ends where no factor follows. -/
theorem Ends.no_factor {ts : List Token} (h : Ends 2 ts) :
    headIs Token.startsFactor ts = false := by
  refine h.headIs_eq_false fun t ht => ?_
  cases t with
  | operation f => cases f <;> first | rfl | simp [Token.endsAt, Operation.level] at ht
  | name s => cases ht
  | opening b => cases ht
  | _ => rfl

/-- A power ends where no further one follows. -/
theorem Ends.no_power {ts : List Token} (h : Ends 4 ts) :
    headIs (Token.isSign (.operation .power)) ts = false := by
  refine h.headIs_eq_false fun t ht => ?_
  cases t with
  | operation f => cases f <;> first | rfl | simp [Token.endsAt, Operation.level] at ht
  | _ => rfl

/-- Where a phrase ends nothing is called. -/
theorem Ends.no_call {n : Nat} {ts : List Token} (h : Ends n ts) :
    headIs Token.opensCall ts = false := by
  refine h.headIs_eq_false fun t ht => ?_
  cases t with
  | opening b => cases ht
  | _ => rfl

/-- What the first token of a phrase may be. -/
def Phrase.StartsWell : Phrase → List Token → Prop
  | .power _, ts | .application _, ts | .primary _, ts => headIs Token.startsOperand ts = true
  | .expression _, ts | .sum _, ts | .product _, ts | .unary _, ts =>
    headIs Token.startsOperand ts = true ∨ headIs Token.isSummandSign ts = true
  | _, _ => True

/-- Operands start with themselves or with a sign. -/
theorem Derives.startsWell {φ : Phrase} {ts us : List Token} (h : Derives φ ts us) :
    φ.StartsWell ts := by
  induction h with
  | expression _ _ ih => exact ih
  | sum _ _ ih => exact ih
  | product _ _ ih => exact ih
  | minus => exact .inr rfl
  | plus => exact .inr rfl
  | unsigned _ _ ih => exact .inl ih
  | base _ _ ih => exact ih
  | raised _ _ ih => exact ih
  | plain _ _ ih => exact ih
  | call _ _ _ ih => exact ih
  | integer => rfl
  | decimal => rfl
  | boolean => rfl
  | name => rfl
  | group => rfl
  | braces => rfl
  | _ => trivial

/-- A power does not start with a sign. -/
theorem Derives.no_sign {e : Expr} {ts us : List Token} (h : Derives (.power e) ts us) :
    headIs Token.isSummandSign ts = false := by
  have hs : headIs Token.startsOperand ts = true := h.startsWell
  cases ts with
  | nil => rfl
  | cons t ts =>
    cases t with
    | operation f => cases hs
    | _ => rfl

/-- An expression does not start with a closing bracket. -/
theorem Derives.no_closing {e : Expr} {ts us : List Token} (h : Derives (.expression e) ts us)
    (b : Bracket) : headIs (Token.isSign (.closing b)) ts = false := by
  have hs : headIs Token.startsOperand ts = true ∨ headIs Token.isSummandSign ts = true :=
    h.startsWell
  cases ts with
  | nil => rfl
  | cons t ts =>
    cases t with
    | closing c => rcases hs with hs | hs <;> cases hs
    | _ => rfl

/-- A power without a sign is an operand. -/
theorem Derives.unary_of_power {e : Expr} {ts us : List Token} (h : Derives (.power e) ts us) :
    Derives (.unary e) ts us := .unsigned h.no_sign h

/-! ## Places -/

/-- The tokens are read as a phrase that ends with them. -/
def Whole (phrase : Expr → Phrase) (n : Nat) (e : Expr) (ts : List Token) : Prop :=
  ∃ e', Agrees e' e ∧ ∀ rest, Ends n rest → Derives (phrase e') (ts ++ rest) rest

/-- The tokens are read as what a chain goes on with. -/
def Starts (phrase : Expr → Phrase) (chain : Expr → Expr → Phrase) (n : Nat) (e : Expr)
    (ts : List Token) : Prop :=
  ∃ e', Agrees e' e ∧ ∀ rest r us, Ends n rest → Derives (chain e' r) rest us →
    Derives (phrase r) (ts ++ rest) us

/-- The tokens are read as an operand with its signs, and a quotient is left over if need be. -/
def Signed (e : Expr) (ts : List Token) : Prop :=
  ∃ u, (Agrees u e ∧ ∀ rest, Ends 4 rest → Derives (.unary u) (ts ++ rest) rest) ∨
    ∃ d, Agrees (.binary .divide u (.ofInt d)) e ∧ ∀ rest, Ends 4 rest →
      Derives (.unary u) (ts ++ rest) (.operation .divide :: .integer d :: rest)

/-- The tokens fit a place of the level. -/
def Fits (e : Expr) (ts : List Token) : Nat → Prop
  | 0 => Whole .expression 0 e ts
  | 1 => Starts .sum .summands 2 e ts ∧
    ∀ a, Starts (.summands a) .summands 2 (.binary .add a e) (.operation .add :: ts)
  | 2 => Starts .product .factors 3 e ts ∧
    ∀ a, Starts (.factors a) .factors 3 (.binary .multiply a e) (.operation .multiply :: ts)
  | 3 => Signed e ts
  | 4 => Whole .power 4 e ts
  | _ => Whole .application 5 e ts

variable {e f a b : Expr} {ts ts' : List Token} {n : Nat}

/-- What is read whole may be exchanged for what agrees. -/
theorem Whole.agrees {phrase : Expr → Phrase} (h : Whole phrase n e ts) (hf : Agrees e f) :
    Whole phrase n f ts := by
  obtain ⟨e', he, hd⟩ := h
  exact ⟨e', he.trans hf, hd⟩

/-- What starts a chain may be exchanged for what agrees. -/
theorem Starts.agrees {phrase : Expr → Phrase} {chain : Expr → Expr → Phrase}
    (h : Starts phrase chain n e ts) (hf : Agrees e f) : Starts phrase chain n f ts := by
  obtain ⟨e', he, hd⟩ := h
  exact ⟨e', he.trans hf, hd⟩

/-- A chain goes on behind a part of it. -/
theorem Starts.append {phrase : Expr → Phrase} {chain : Expr → Expr → Phrase} {t : Token}
    (h : Starts phrase chain n e ts) (ht : t.endsAt n = true)
    (h' : ∀ e', Agrees e' e → Starts (chain e') chain n f (t :: ts')) :
    Starts phrase chain n f (ts ++ t :: ts') := by
  obtain ⟨e', he, hd⟩ := h
  obtain ⟨f', hf, hd'⟩ := h' e' he
  refine ⟨f', hf, fun rest r us hr hc => ?_⟩
  rw [List.append_assoc]
  exact hd _ r us ht (hd' rest r us hr hc)

/-- What agrees with the expression fits just as well. -/
theorem Fits.agrees (h : Fits e ts n) (hf : Agrees e f) : Fits f ts n := by
  match n, h with
  | 0, h => exact Whole.agrees h hf
  | 1, h => exact ⟨h.1.agrees hf, fun a => (h.2 a).agrees ((Agrees.refl a).binary .add hf)⟩
  | 2, h => exact ⟨h.1.agrees hf, fun a => (h.2 a).agrees ((Agrees.refl a).binary .multiply hf)⟩
  | 3, ⟨u, .inl ⟨hu, hd⟩⟩ => exact ⟨u, .inl ⟨hu.trans hf, hd⟩⟩
  | 3, ⟨u, .inr ⟨d, hu, hd⟩⟩ => exact ⟨u, .inr ⟨d, hu.trans hf, hd⟩⟩
  | 4, h => exact Whole.agrees h hf
  | _ + 5, h => exact Whole.agrees h hf

/-! ## Tight tokens fit loose places -/

/-- A place of a power takes what may be called. -/
theorem Fits.power (h : Fits e ts 5) : Fits e ts 4 := by
  obtain ⟨e', he, hd⟩ := h
  exact ⟨e', he, fun rest hr => .base hr.no_power (hd rest (hr.mono (by decide)))⟩

/-- A place of a signed operand takes a power. -/
theorem Fits.signed (h : Fits e ts 4) : Fits e ts 3 := by
  obtain ⟨e', he, hd⟩ := h
  exact ⟨e', .inl ⟨he, fun rest hr => (hd rest hr).unary_of_power⟩⟩

/-- An operand with its signs starts a product and goes on one. -/
theorem Fits.product (h : Fits e ts 3) : Fits e ts 2 := by
  obtain ⟨u, ⟨hu, hd⟩ | ⟨d, hu, hd⟩⟩ := h
  · refine ⟨⟨u, hu, fun rest r us hr hc => .product (hd rest (hr.mono (by decide))) hc⟩,
      fun a => ⟨.binary .multiply a u, (Agrees.refl a).binary .multiply hu, ?_⟩⟩
    intro rest r us hr hc
    exact .nextFactor rfl (hd rest (hr.mono (by decide))) hc
  · have hdivisor (rest : List Token) (hr : Ends 3 rest) :
        Derives (.unary (.ofInt d)) (.integer d :: rest) rest := by
      have hp : Derives (.primary (.ofInt d)) (.integer d :: rest) rest := .integer
      refine Derives.unary_of_power (.base (hr.mono (by decide)).no_power (.plain hp ?_))
      intro hs
      cases hs
    refine ⟨⟨_, hu, fun rest r us hr hc => ?_⟩,
      fun a => ⟨.binary .divide (.binary .multiply a u) (.ofInt d), ?_, ?_⟩⟩
    · exact .product (hd rest (hr.mono (by decide))) (.nextFactor rfl (hdivisor rest hr) hc)
    · intro i
      have hi := hu i
      simp only [Interpretation.value, Interpretation.operation] at hi ⊢
      rw [← hi, mul_div_assoc]
    · intro rest r us hr hc
      exact .nextFactor rfl (hd rest (hr.mono (by decide))) (.nextFactor rfl (hdivisor rest hr) hc)

/-- What starts a product is a whole product where one ends. -/
theorem Fits.whole_product (h : Fits e ts 2) : Whole .product 2 e ts := by
  obtain ⟨e', he, hd⟩ := h.1
  exact ⟨e', he, fun rest hr => hd rest e' rest (hr.mono (by decide)) (.lastFactor hr.no_factor)⟩

/-- A place of a summand takes a product. -/
theorem Fits.sum (h : Fits e ts 2) : Fits e ts 1 := by
  obtain ⟨e', he, hd⟩ := h.whole_product
  refine ⟨⟨e', he, fun rest r us hr hc => .sum (hd rest hr) hc⟩,
    fun a => ⟨.binary .add a e', (Agrees.refl a).binary .add he, ?_⟩⟩
  intro rest r us hr hc
  exact .nextSummand rfl (hd rest hr) hc

/-- What starts a sum is a whole sum where one ends. -/
theorem Fits.whole_sum (h : Fits e ts 1) : Whole .sum 1 e ts := by
  obtain ⟨e', he, hd⟩ := h.1
  exact ⟨e', he, fun rest hr =>
    hd rest e' rest (hr.mono (by decide)) (.lastSummand hr.no_summandSign)⟩

/-- A place of an expression takes a sum. -/
theorem Fits.expression (h : Fits e ts 1) : Fits e ts 0 := by
  obtain ⟨e', he, hd⟩ := h.whole_sum
  exact ⟨e', he, fun rest hr =>
    .expression (hd rest (hr.mono (by decide))) (.lastSide hr.no_relation)⟩

/-- What fits a tight place fits every looser one. -/
theorem Fits.loosen {m n : Nat} (h : Fits e ts n) (hmn : m ≤ n) : Fits e ts m := by
  have step (k : Nat) (hk : Fits e ts (k + 1)) : Fits e ts k := by
    match k, hk with
    | 0, hk => exact hk.expression
    | 1, hk => exact hk.sum
    | 2, hk => exact hk.product
    | 3, hk => exact hk.signed
    | 4, hk => exact hk.power
    | _ + 5, hk => exact hk
  induction hmn with
  | refl => exact h
  | step _ ih => exact ih (step _ h)

/-- In round brackets every expression fits everywhere. -/
theorem Fits.group (h : Fits e ts 0) :
    Fits e (.opening .round :: (ts ++ [.closing .round])) n := by
  obtain ⟨e', he, hd⟩ := h
  have happlication : Fits e (.opening .round :: (ts ++ [.closing .round])) (n + 5) := by
    refine ⟨e', he, fun rest hr => .plain ?_ fun _ => hr.no_call⟩
    have hg := hd (.closing .round :: rest) rfl
    rw [List.cons_append, List.append_assoc]
    exact .group hg
  exact happlication.loosen (by omega)

/-! ## What operations make of operands -/

/-- A further summand behind a minus sign. -/
theorem Fits.subtrahend (h : Fits b ts 2) (a : Expr) :
    Starts (.summands a) .summands 2 (.binary .subtract a b) (.operation .subtract :: ts) := by
  obtain ⟨b', hb, hd⟩ := h.whole_product
  refine ⟨.binary .subtract a b', (Agrees.refl a).binary .subtract hb, fun rest r us hr hc => ?_⟩
  exact .nextSummand rfl (hd rest hr) hc

/-- A further factor behind a slash. -/
theorem Fits.divisor (h : Fits b ts 4) (a : Expr) :
    Starts (.factors a) .factors 3 (.binary .divide a b) (.operation .divide :: ts) := by
  obtain ⟨b', hb, hd⟩ := h
  refine ⟨.binary .divide a b', (Agrees.refl a).binary .divide hb, fun rest r us hr hc => ?_⟩
  exact .nextFactor rfl (hd rest (hr.mono (by decide))).unary_of_power hc

/-- A sum of three operands may be read from the left. -/
theorem Fits.add (ha : Fits a ts 1) (hb : Fits b ts' 1) :
    Fits (.binary .add a b) (ts ++ .operation .add :: ts') 1 := by
  refine ⟨ha.1.append rfl fun a' ha' => (hb.2 a').agrees (ha'.binary .add (Agrees.refl b)),
    fun c => (ha.2 c).append rfl fun a' ha' => (hb.2 a').agrees fun i => ?_⟩
  have hi := ha' i
  simp only [Interpretation.value, Interpretation.operation] at hi ⊢
  rw [hi, add_assoc]

/-- A difference of a sum and a product. -/
theorem Fits.subtract (ha : Fits a ts 1) (hb : Fits b ts' 2) :
    Fits (.binary .subtract a b) (ts ++ .operation .subtract :: ts') 1 := by
  refine ⟨ha.1.append rfl fun a' ha' =>
      (hb.subtrahend a').agrees (ha'.binary .subtract (Agrees.refl b)),
    fun c => (ha.2 c).append rfl fun a' ha' => (hb.subtrahend a').agrees fun i => ?_⟩
  have hi := ha' i
  simp only [Interpretation.value, Interpretation.operation] at hi ⊢
  rw [hi, add_sub_assoc]

/-- A product of two products. -/
theorem Fits.multiply (ha : Fits a ts 2) (hb : Fits b ts' 2) :
    Fits (.binary .multiply a b) (ts ++ .operation .multiply :: ts') 2 := by
  refine ⟨ha.1.append rfl fun a' ha' => (hb.2 a').agrees (ha'.binary .multiply (Agrees.refl b)),
    fun c => (ha.2 c).append rfl fun a' ha' => (hb.2 a').agrees fun i => ?_⟩
  have hi := ha' i
  simp only [Interpretation.value, Interpretation.operation] at hi ⊢
  rw [hi, mul_assoc]

/-- A quotient by a power. -/
theorem Fits.divide (ha : Fits a ts 2) (hb : Fits b ts' 4) :
    Fits (.binary .divide a b) (ts ++ .operation .divide :: ts') 2 := by
  refine ⟨ha.1.append rfl fun a' ha' =>
      (hb.divisor a').agrees (ha'.binary .divide (Agrees.refl b)),
    fun c => (ha.2 c).append rfl fun a' ha' => (hb.divisor a').agrees fun i => ?_⟩
  have hi := ha' i
  simp only [Interpretation.value, Interpretation.operation] at hi ⊢
  rw [hi, mul_div_assoc]

/-- A power with a power as its exponent. -/
theorem Fits.raise (ha : Fits a ts 5) (hb : Fits b ts' 4) :
    Fits (.binary .power a b) (ts ++ .operation .power :: ts') 4 := by
  obtain ⟨a', ha, hda⟩ := ha
  obtain ⟨b', hb, hdb⟩ := hb
  refine ⟨.binary .power a' b', ha.binary .power hb, fun rest hr => ?_⟩
  rw [List.append_assoc]
  exact .raised (hda (.operation .power :: (ts' ++ rest)) rfl) (hdb rest hr).unary_of_power

/-- A minus sign in front of an operand, whose quotient stays outside. -/
theorem Fits.neg (ha : Fits a ts 3) : Fits (.neg a) (.operation .subtract :: ts) 3 := by
  obtain ⟨u, ⟨hu, hd⟩ | ⟨d, hu, hd⟩⟩ := ha
  · exact ⟨.neg u, .inl ⟨hu.neg, fun rest hr => .minus (hd rest hr)⟩⟩
  · refine ⟨.neg u, .inr ⟨d, fun i => ?_, fun rest hr => .minus (hd rest hr)⟩⟩
    have hi := hu i
    simp only [Interpretation.value, Interpretation.operation] at hi ⊢
    rw [← hi, neg_div]

/-- A comparison of two sums. -/
theorem Fits.compare (r : Relation) (ha : Fits a ts 1) (hb : Fits b ts' 1) :
    Fits (.compare r a b) (ts ++ .relation r :: ts') 0 := by
  obtain ⟨a', ha, hda⟩ := ha.whole_sum
  obtain ⟨b', hb, hdb⟩ := hb.whole_sum
  refine ⟨.compare r a' b', ha.compare r hb, fun rest hr => ?_⟩
  rw [List.append_assoc]
  refine .expression (hda (.relation r :: (ts' ++ rest)) rfl) (.nextSide (hdb rest ?_) ?_)
  · exact hr.mono (by decide)
  · exact .lastSide hr.no_relation

/-! ## Leaves -/

/-- What stands on its own fits the tightest place. -/
theorem Fits.of_primary (h : ∀ rest, Derives (.primary e) (ts ++ rest) rest) : Fits e ts 5 :=
  ⟨e, Agrees.refl e, fun rest hr => .plain (h rest) fun _ => hr.no_call⟩

/-- A number stands on its own. -/
theorem Fits.integer (m : Int) : Fits (.ofInt m) [.integer m] 5 :=
  .of_primary fun _ => .integer

/-- A name stands on its own. -/
theorem Fits.symbol (s : String) : Fits (.symbol s) [.name s] 5 :=
  .of_primary fun _ => .name

/-- A truth value stands on its own. -/
theorem Fits.boolean (b : Bool) : Fits (.boolean b) [.boolean b] 5 :=
  .of_primary fun _ => .boolean

/-- A negative fraction is a quotient whose dividend has the sign. -/
theorem Fits.negative_fraction (m d : Int) :
    Fits (.neg (.binary .divide (.ofInt m) (.ofInt d)))
      [.operation .subtract, .integer m, .operation .divide, .integer d] 3 := by
  obtain ⟨u, hu, hd⟩ := (Fits.integer m).power
  refine ⟨.neg u, .inr ⟨d, fun i => ?_, fun rest _ => ?_⟩⟩
  · have hi := hu i
    simp only [Interpretation.value, Interpretation.operation] at hi ⊢
    rw [hi, neg_div]
  · have hquotient := hd (.operation .divide :: .integer d :: rest) rfl
    exact .minus hquotient.unary_of_power

/-! ## Arguments -/

/-- The tokens are read as further arguments behind commas. -/
def FitsMore (es : List Expr) (ts : List Token) : Prop :=
  (∀ rest, Ends 0 rest → Ends 0 (ts ++ rest)) ∧
    ∃ es', AllAgree es' es ∧ ∀ sofar b rest,
      Derives (.moreArguments sofar (sofar ++ es')) (ts ++ .closing b :: rest) (.closing b :: rest)

/-- The tokens are read as arguments. -/
def FitsArguments (es : List Expr) (ts : List Token) : Prop :=
  ∃ es', AllAgree es' es ∧ ∀ b rest,
    Derives (.arguments b es') (ts ++ .closing b :: rest) (.closing b :: rest)

variable {es : List Expr}

theorem FitsMore.nil : FitsMore [] [] :=
  ⟨fun _ hr => hr, [], AllAgree.nil, fun sofar b rest => by
    rw [List.append_nil]
    exact .lastArgument rfl⟩

/-- A comma and an argument in front of further ones. -/
theorem FitsMore.cons (h : Fits e ts 0) (hs : FitsMore es ts') :
    FitsMore (e :: es) (.comma :: ts ++ ts') := by
  obtain ⟨e', he, hd⟩ := h
  obtain ⟨hends, es', hes, hds⟩ := hs
  refine ⟨fun rest _ => rfl, e' :: es', AllAgree.cons he hes, fun sofar b rest => ?_⟩
  rw [List.cons_append, List.cons_append, List.append_assoc]
  refine .nextArgument (hd (ts' ++ .closing b :: rest) (hends _ rfl)) ?_
  have hmore := hds (sofar ++ [e']) b rest
  rwa [List.append_assoc] at hmore

theorem FitsArguments.nil : FitsArguments [] [] :=
  ⟨[], AllAgree.nil, fun _ _ => .noArguments⟩

/-- A first argument in front of further ones. -/
theorem FitsArguments.cons (h : Fits e ts 0) (hs : FitsMore es ts') :
    FitsArguments (e :: es) (ts ++ ts') := by
  obtain ⟨e', he, hd⟩ := h
  obtain ⟨hends, es', hes, hds⟩ := hs
  refine ⟨e' :: es', AllAgree.cons he hes, fun b rest => ?_⟩
  have hfirst := hd (ts' ++ .closing b :: rest) (hends _ rfl)
  rw [List.append_assoc]
  exact .arguments (hfirst.no_closing b) hfirst (hds [e'] b rest)

/-- Arguments in brackets behind a name. -/
theorem FitsArguments.call (s : String) (h : FitsArguments es ts) :
    Fits (.call s es) (.name s :: .opening .round :: (ts ++ [.closing .round])) 5 := by
  obtain ⟨es', hes, hd⟩ := h
  refine ⟨.call s es', hes.call s, fun rest _ => ?_⟩
  have hargs := hd .round rest
  simp only [List.cons_append, List.append_assoc]
  exact .call rfl .name hargs

/-- Items in curly brackets. -/
theorem FitsArguments.list (h : FitsArguments es ts) :
    Fits (.list es) (.opening .curly :: (ts ++ [.closing .curly])) 5 := by
  obtain ⟨es', hes, hd⟩ := h
  refine ⟨.list es', hes.list, fun rest hr => .plain ?_ fun _ => hr.no_call⟩
  have hitems := hd .curly rest
  simp only [List.cons_append, List.append_assoc]
  exact .braces hitems

end Grammar

end Reckoner
