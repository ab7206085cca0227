import Reckoner.Proofs.Grammar.Callees
import Reckoner.Proofs.Grammar.Completeness
import Reckoner.Proofs.Grammar.Juxtaposition

/-!
# Written multiplication

With an asterisk for each multiplication that has none, a text is read as before, unless a round
bracket calls a name that stands in round brackets itself: the asterisk makes that a product. Each
such call is one asterisk more than there are products in the tree, so the tree is another one.
-/

namespace Reckoner

namespace Expr

mutual

/-- The number of products. -/
def products : Expr → Nat
  | exact _ | real _ | symbol _ | boolean _ => 0
  | neg a => products a
  | binary .multiply a b => products a + products b + 1
  | binary _ a b | compare _ a b => products a + products b
  | call _ as | list as => productsAll as

/-- The number of products in all trees. -/
def productsAll : List Expr → Nat
  | [] => 0
  | a :: as => products a + productsAll as

end

theorem productsAll_append (as bs : List Expr) :
    productsAll (as ++ bs) = productsAll as + productsAll bs := by
  induction as with
  | nil => rw [List.nil_append, productsAll, Nat.zero_add]
  | cons a as ih => rw [List.cons_append, productsAll, productsAll, ih, Nat.add_assoc]

end Expr

namespace Bracketing

/-- The name in round brackets that the token calls, if it is an opening round bracket. -/
def grouped (σ : Bracketing) : Token → Option String
  | .opening .round => σ.callee.bind fun c => if c.2 then some c.1 else none
  | _ => none

/-- The names in round brackets that are called with round brackets in the tokens, in order. -/
def groups (σ : Bracketing) : List Token → List String
  | [] => []
  | t :: ts => (σ.grouped t).toList ++ groups (σ.next t) ts

theorem groups_append (σ : Bracketing) (ts us : List Token) :
    σ.groups (ts ++ us) = σ.groups ts ++ (σ.after ts).groups us := by
  induction ts generalizing σ with
  | nil => rfl
  | cons t ts ih => rw [List.cons_append, groups, groups, ih, List.append_assoc]; rfl

/-- On the way from some tokens to others this many names in brackets are called. -/
def Tally (σ : Bracketing) (ts us : List Token) (n : Nat) : Prop :=
  ∃ cs, ts = cs ++ us ∧ (σ.groups cs).length = n

variable {σ τ : Bracketing} {t : Token} {ts us vs : List Token} {m n : Nat}

theorem Tally.refl (σ : Bracketing) (ts : List Token) : Tally σ ts ts 0 := ⟨[], rfl, rfl⟩

theorem Tally.trans {names : List String} (h : Tally σ ts us m) (hf : Finds σ ts names τ us)
    (h' : Tally τ us vs n) : Tally σ ts vs (m + n) := by
  obtain ⟨cs, rfl, rfl⟩ := h
  obtain ⟨cs', rfl, rfl⟩ := h'
  obtain ⟨⟨cs'', hcs, rfl⟩, -⟩ := hf
  obtain rfl := List.append_cancel_right hcs
  exact ⟨cs ++ cs', (List.append_assoc ..).symm, by rw [groups_append, List.length_append]⟩

/-- A token that calls no name in brackets adds none. -/
theorem Tally.cons (h : Tally (σ.next t) ts us n) (ht : σ.grouped t = none) :
    Tally σ (t :: ts) us n := by
  obtain ⟨cs, rfl, rfl⟩ := h
  exact ⟨t :: cs, rfl, by rw [groups, ht, Option.toList_none, List.nil_append]⟩

/-- A token that calls a name in brackets adds one. -/
theorem Tally.cons_group {s : String} (h : Tally (σ.next t) ts us n)
    (ht : σ.grouped t = some s) : Tally σ (t :: ts) us (n + 1) := by
  obtain ⟨cs, rfl, rfl⟩ := h
  exact ⟨t :: cs, rfl, by
    rw [groups, ht, Option.toList_some, List.singleton_append, List.length_cons]⟩

/-- Only a bracket calls a name. -/
theorem grouped_eq_none (h : σ.callee = none) : σ.grouped t = none := by
  unfold grouped
  split
  · rw [h, Option.bind_none]
  · rfl

end Bracketing

namespace Token

/-- The number of signs of multiplication. -/
def stars (ts : List Token) : Nat := ts.countP (isSign (operation .multiply))

/-- The tokens behind an operand, with the signs for multiplication. -/
def beside (ts : List Token) : List Token :=
  if Grammar.headIs multiplies ts then operation .multiply :: starred ts else starred ts

variable {t : Token} {ts : List Token}

/-- Where nothing multiplies no asterisk is put. -/
theorem starred_cons (h : juxtaposed t ts = false) : starred (t :: ts) = t :: starred ts := by
  rw [starred, h, if_neg Bool.false_ne_true]

/-- Behind what ends no operand the asterisks go on as at a start. -/
theorem beside_cons (ht : t.multiplies = false) (hend : t.endsOperand = false) :
    beside (t :: ts) = t :: starred ts := by
  rw [beside, Grammar.headIs_cons, ht, if_neg Bool.false_ne_true]
  exact starred_cons (by rw [juxtaposed, hend, Bool.false_and, Bool.false_and])

/-- A sign or an opening bracket is multiplied by nothing. -/
theorem starred_cons_of_not_end (h : t.endsOperand = false) :
    starred (t :: ts) = t :: starred ts :=
  starred_cons (by rw [juxtaposed, h, Bool.false_and, Bool.false_and])

/-- An operand that is not called is multiplied by what stands directly behind it. -/
theorem starred_cons_of_end (h : t.endsOperand = true)
    (hfree : t.isSymbol = true → Grammar.headIs opensCall ts = false) :
    starred (t :: ts) = t :: beside ts := by
  have hcall : (t.isSymbol && Grammar.headIs opensCall ts) = false := by
    rw [Bool.and_eq_false_imp]
    exact hfree
  rw [starred, beside, juxtaposed, h, hcall, Bool.true_and, Bool.not_false, Bool.and_true]
  split <;> rfl

/-- Asterisks do not change the first token. -/
theorem headIs_starred (p : Token → Bool) (ts : List Token) :
    Grammar.headIs p (starred ts) = Grammar.headIs p ts := by
  cases ts with
  | nil => rfl
  | cons t ts =>
    rw [starred]
    split <;> rfl

/-- Behind an operand only an asterisk can come to stand first. -/
theorem headIs_beside {p : Token → Bool} (hp : p (operation .multiply) = false)
    (h : Grammar.headIs p ts = false) : Grammar.headIs p (beside ts) = false := by
  rw [beside]
  split
  · exact hp
  · rwa [headIs_starred]

/-- Where no factor starts nothing multiplies. -/
theorem beside_of_no_factor (h : Grammar.headIs startsFactor ts = false) :
    beside ts = starred ts := by
  have hmultiplies : Grammar.headIs multiplies ts = false := by
    cases ts with
    | nil => rfl
    | cons t ts =>
      cases t with
      | name s => cases h
      | opening b => cases b <;> first | rfl | cases h
      | _ => rfl
  rw [beside, hmultiplies, if_neg Bool.false_ne_true]

/-- The asterisks are those of the first token and of the rest. -/
theorem stars_cons (t : Token) (ts : List Token) :
    stars (t :: ts) = stars ts + if (operation .multiply).isSign t then 1 else 0 :=
  List.countP_cons

/-- The sign of a product is counted as the product is. -/
theorem products_binary (f : Operation) (a b : Expr) (ts : List Token) :
    (Expr.binary f a b).products + stars ts =
      a.products + b.products + stars (operation f :: ts) := by
  rw [stars_cons]
  cases f with
  | multiply => exact (Nat.add_right_comm ..).trans (Nat.add_assoc ..)
  | _ => rfl

end Token

namespace Grammar

open Bracketing Token

variable {σ σ₀ τ : Bracketing} {k l m : Nat} {ts us vs : List Token}

/-- Some names in brackets are called on the way, each is one asterisk more than there are new
products, and if there are none then something is read. -/
def Restars (σ : Bracketing) (ts us ts' us' : List Token) (before after : Nat) (P : Prop) : Prop :=
  ∃ g, Tally σ ts us g ∧ after + stars us' + g = before + stars ts' ∧ (g = 0 → P)

/-- A token that is no asterisk and calls no name in brackets is left as it is. -/
theorem Restars.cons {t : Token} {ts' us' : List Token} {m n : Nat} {P Q : Prop}
    (h : Restars (σ.next t) ts us ts' us' m n P) (ht : σ.grouped t = none)
    (hstar : (Token.operation .multiply).isSign t = false) (hPQ : P → Q) :
    Restars σ (t :: ts) us (t :: ts') us' m n Q := by
  obtain ⟨g, htally, hsigns, hP⟩ := h
  refine ⟨g, htally.cons ht, ?_, fun hg => hPQ (hP hg)⟩
  rwa [stars_cons, hstar, if_neg Bool.false_ne_true]

/-- Nothing is between the closing bracket and what it is multiplied with. -/
theorem beside_closing (b : Bracket) (ts : List Token) :
    beside (.closing b :: ts) = .closing b :: beside ts :=
  starred_cons_of_end rfl nofun

/-- Past the closing bracket. -/
theorem Restars.close {b : Bracket} {names : List String} {ts' : List Token} {m n : Nat} {P : Prop}
    (h : Restars σ ts (.closing b :: us) ts' (beside (.closing b :: us)) m n P)
    (hf : Finds σ ts names τ (.closing b :: us)) :
    Restars σ ts us ts' (beside us) m n P := by
  obtain ⟨g, htally, hsigns, hP⟩ := h
  rw [beside_closing] at hsigns
  exact ⟨g, htally.trans hf ((Tally.refl _ us).cons rfl), hsigns, hP⟩

/-- An operand, also with the asterisks. -/
def RestarsOperand (P : List Token → List Token → Prop) (e : Expr) (ts us : List Token) : Prop :=
  ∀ σ : Bracketing, σ.Ready ts →
    Restars σ ts us (starred ts) (beside us) 0 e.products (P (starred ts) (beside us))

/-- What a chain adds, also with the asterisks. -/
def RestarsChain (P : List Token → List Token → Prop) (a e : Expr) (ts us : List Token) : Prop :=
  ∀ σ₀ σ : Bracketing, Settled a σ₀ σ ts →
    Restars σ ts us (beside ts) (beside us) a.products e.products (P (beside ts) (beside us))

/-- A phrase, also with the asterisks. A name on its own may have to be called yet. -/
def Restarred (k : Nat) (φ : Phrase) (ts us : List Token) : Prop :=
  match φ with
  | .expression e | .sum e | .product e | .unary e | .power e | .application e =>
    RestarsOperand (Nested k φ) e ts us
  | .sides a e | .summands a e | .factors a e => RestarsChain (Nested k φ) a e ts us
  | .primary e => headIs isSymbol ts = false → RestarsOperand (Nested k φ) e ts us
  | .arguments _ es => ∀ σ : Bracketing, σ.callee = none → σ.lone = false →
    Restars σ ts us (starred ts) (beside us) 0 (Expr.productsAll es)
      (Nested k φ (starred ts) (beside us))
  | .moreArguments sofar es => ∀ σ : Bracketing, σ.lone = false →
    Restars σ ts us (beside ts) (beside us) (Expr.productsAll sofar) (Expr.productsAll es)
      (Nested k φ (beside ts) (beside us))

variable {a b e e' : Expr} {P Q R : List Token → List Token → Prop}

/-- An operand and the chain behind it. -/
theorem RestarsOperand.chain (h : RestarsOperand P a ts us) (hf : FindsOperand a ts us)
    (hc : RestarsChain Q a e us vs) (hR : ∀ {ts us vs}, P ts us → Q us vs → R ts vs) :
    RestarsOperand R e ts vs := by
  intro σ hσ
  obtain ⟨g, ht, hsigns, hP⟩ := h σ hσ
  obtain ⟨σ', hs, hf⟩ := hf σ hσ
  obtain ⟨g', ht', hsigns', hQ⟩ := hc σ σ' hs
  exact ⟨g + g', ht.trans hf ht', by omega, fun hg => hR (hP (by omega)) (hQ (by omega))⟩

/-- A chain stops in front of the same token. -/
theorem RestarsChain.refl (h : P (beside ts) (beside ts)) : RestarsChain P a a ts ts :=
  fun _ σ _ => ⟨0, .refl σ ts, rfl, fun _ => h⟩

/-- A chain goes on with a further operand, behind a sign that was there or is new. -/
theorem RestarsChain.step {ts' : List Token} (hb : RestarsOperand P b ts' us)
    (hf : FindsOperand b ts' us) (hc : RestarsChain Q e' e us vs) (he' : e'.symbolName? = none)
    (hsigns : e'.products + stars (starred ts') = a.products + b.products + stars (beside ts))
    (hτ : ∀ σ₀ σ : Bracketing, Settled a σ₀ σ ts → ∃ τ : Bracketing, τ.Ready ts' ∧
      τ.isFresh = false ∧ τ.outer = σ.outer ∧ ∀ g, Tally τ ts' vs g → Tally σ ts vs g)
    (hR : P (starred ts') (beside us) → Q (beside us) (beside vs) → R (beside ts) (beside vs)) :
    RestarsChain R a e ts vs := by
  intro σ₀ σ hs
  obtain ⟨τ, hready, hfresh, houter, hfirst⟩ := hτ σ₀ σ hs
  obtain ⟨g, ht, hsigns₁, hP⟩ := hb τ hready
  obtain ⟨σ₁, hs₁, hf₁⟩ := hf τ hready
  obtain ⟨g', ht', hsigns₂, hQ⟩ := hc σ₀ σ₁ (hs₁.extend hfresh (houter.trans hs.outer) he')
  refine ⟨g + g', hfirst _ (ht.trans hf₁ ht'), by omega, fun hg => ?_⟩
  exact hR (hP (by omega)) (hQ (by omega))

/-- A further side of a comparison. -/
theorem RestarsOperand.side {f : Relation} (hb : RestarsOperand P b ts us)
    (hf : FindsOperand b ts us) (hc : RestarsChain Q (.compare f a b) e us vs)
    (hR : P (starred ts) (beside us) → Q (beside us) (beside vs) →
      R (.relation f :: starred ts) (beside vs)) :
    RestarsChain R a e (.relation f :: ts) vs := by
  refine .step hb hf hc rfl ?_
    (fun _ σ _ => ⟨σ.next (.relation f), .inl rfl, rfl, rfl, fun _ h => h.cons rfl⟩) ?_
  · rw [beside_cons rfl rfl]
    rfl
  · rwa [beside_cons rfl rfl]

/-- A further operand behind the sign of an operation. -/
theorem RestarsOperand.term {f : Operation} (hb : RestarsOperand P b ts us)
    (hf : FindsOperand b ts us) (hc : RestarsChain Q (.binary f a b) e us vs)
    (hR : P (starred ts) (beside us) → Q (beside us) (beside vs) →
      R (.operation f :: starred ts) (beside vs)) :
    RestarsChain R a e (.operation f :: ts) vs := by
  refine .step hb hf hc rfl ?_ (fun _ σ hs => ?_) ?_
  · rw [beside_cons rfl rfl]
    exact products_binary ..
  · obtain ⟨hcallee, hfresh, houter⟩ := next_sign (f := f) hs
    exact ⟨_, .inl hcallee, hfresh, houter, fun _ h => h.cons rfl⟩
  · rwa [beside_cons rfl rfl]

/-- A further factor without a sign, which gets an asterisk. -/
theorem RestarsOperand.factor {t : Token} (hb : RestarsOperand (Nested k (.power b)) b (t :: ts) us)
    (hf : FindsOperand b (t :: ts) us)
    (hc : RestarsChain (Nested l (.factors (.binary .multiply a b) e)) (.binary .multiply a b) e
      us vs) (ht : t.multiplies = true)
    (hready : ∀ {σ₀ σ : Bracketing}, Settled a σ₀ σ (t :: ts) → σ.Ready (t :: ts)) :
    RestarsChain (Nested (max k l) (.factors a e)) a e (t :: ts) vs := by
  have hbeside : beside (t :: ts) = .operation .multiply :: starred (t :: ts) := by
    rw [beside, headIs_cons, if_pos ht]
  refine .step hb hf hc rfl ?_
    (fun _ σ hs => ⟨σ, hready hs, hs.isFresh_eq_false, rfl, fun _ h => h⟩) fun hb hc => ?_
  · rw [hbeside]
    exact products_binary ..
  · rw [hbeside]
    refine .nextFactor rfl (.unsigned ?_ hb) hc
    rw [headIs_starred, headIs_cons]
    cases t <;> first | rfl | cases ht

/-- A token that is an operand on its own and no name. -/
theorem restarsOperand_leaf {t : Token} (hproducts : e.products = 0) (hend : t.endsOperand = true)
    (ht : t.isSymbol = false) (hgroup : ∀ σ : Bracketing, σ.grouped t = none)
    (hP : ∀ ts, P (t :: ts) ts) : RestarsOperand P e (t :: ts) ts := by
  intro σ _
  rw [starred_cons_of_end hend (by rw [ht]; exact nofun), hproducts]
  refine ⟨0, (Tally.refl _ ts).cons (hgroup σ), ?_, fun _ => hP _⟩
  rw [stars_cons]
  cases t <;> first | rfl | cases hend

/-- Arguments, past their closing bracket. -/
theorem Restarred.close {b : Bracket} {es : List Expr}
    (h : Restarred l (.arguments b es) us (.closing b :: vs))
    (hargs : Nested l (.arguments b es) us (.closing b :: vs)) (hcallee : τ.callee = none)
    (hlone : τ.lone = false) :
    Restars τ us vs (starred us) (beside vs) 0 (Expr.productsAll es)
      (Nested l (.arguments b es) (starred us) (.closing b :: beside vs)) := by
  obtain ⟨τ', new, -, -, -, hf⟩ := foundIn_of_derives hargs.derives τ hcallee hlone
  rw [← beside_closing]
  exact (h τ hcallee hlone).close hf

/-- The call of a name that stands directly before the bracket. -/
theorem restarsOperand_call_name {b : Bracket} {s : String} {es : List Expr}
    (hb : (Token.opening b).opensCall) (hargs : Nested l (.arguments b es) us (.closing b :: vs))
    (h : Restarred l (.arguments b es) us (.closing b :: vs)) :
    RestarsOperand (Nested (max 0 l) (.application (.call s es))) (.call s es)
      (.name s :: .opening b :: us) vs := by
  intro σ _
  have hopen : (σ.next (.name s)).next (.opening b) = ⟨none, false, false :: σ.outer⟩ := by
    cases b <;> rfl
  have hfree : (σ.next (.name s)).grouped (.opening b) = none := by cases b <;> rfl
  have hstarred : starred (.name s :: .opening b :: us) =
      .name s :: .opening b :: starred us := by
    rw [starred_cons, starred_cons_of_not_end rfl]
    rw [juxtaposed, headIs_cons, headIs_cons, hb]
    simp [isSymbol]
  rw [hstarred]
  refine .cons (.cons (h.close hargs ?_ ?_) hfree rfl fun h => ?_) rfl rfl id
  · rw [hopen]
  · rw [hopen]
  · exact .call hb .name h

/-- The call of a name in round brackets, which becomes a product if the bracket is round. -/
theorem restarsOperand_call_group {b : Bracket} {s : String} {es : List Expr}
    (hb : (Token.opening b).opensCall) (hname : headIs isSymbol ts = false)
    (hp : Nested k (.primary (.symbol s)) ts (.opening b :: us))
    (ih : RestarsOperand (Nested k (.primary (.symbol s))) (.symbol s) ts (.opening b :: us))
    (hargs : Nested l (.arguments b es) us (.closing b :: vs))
    (h : Restarred l (.arguments b es) us (.closing b :: vs)) :
    RestarsOperand (Nested (max k l) (.application (.call s es))) (.call s es) ts vs := by
  intro σ hσ
  obtain ⟨g, ht, hsigns, hn⟩ := ih σ hσ
  obtain ⟨σ₁, -, -, hc₁, hflag, hf₁⟩ := foundIn_of_derives hp.derives σ hσ
  obtain ⟨w, hw⟩ := callee_of_map hc₁
  obtain rfl : w = true := hflag hname _ hw
  obtain ⟨g', ht', hsigns', hn'⟩ := h.close hargs (τ := σ₁.next (.opening b))
    (by cases b <;> simp only [next, hw, Option.isNone_some, Bool.false_eq_true, if_false])
    (by cases b <;> simp only [next, hw, Option.isNone_some, Bool.false_eq_true, if_false])
  have hproducts : (Expr.symbol s).products = 0 := rfl
  have hcall : (Expr.call s es).products = Expr.productsAll es := rfl
  cases b with
  | round =>
    -- The asterisk is new and the product is not there, so the tally says that nothing is read.
    have hgroup : σ₁.grouped (.opening .round) = some s := by
      rw [grouped, hw, Option.bind_some, if_pos rfl]
    have hstars : stars (beside (.opening .round :: us)) = stars (starred us) + 1 := by
      have hbeside : beside (.opening .round :: us) =
          .operation .multiply :: starred (.opening .round :: us) := rfl
      rw [hbeside, starred_cons_of_not_end rfl, stars_cons, stars_cons]
      rfl
    exact ⟨g + (g' + 1), ht.trans hf₁ (ht'.cons_group hgroup), by omega, fun hg => by omega⟩
  | square =>
    have hbeside : beside (.opening .square :: us) = .opening .square :: starred us :=
      beside_cons rfl rfl
    have hstars : stars (.opening .square :: starred us) = stars (starred us) := rfl
    rw [hbeside] at hsigns hn
    refine ⟨g + g', ht.trans hf₁ (ht'.cons rfl), by omega, fun hg => ?_⟩
    exact .call hb (hn (by omega)) (hn' (by omega))
  | curly => cases hb

/-- A group, whose brackets hold an expression. -/
theorem restarsOperand_group (he : Nested k (.expression e) ts (.closing .round :: us))
    (ih : RestarsOperand (Nested k (.expression e)) e ts (.closing .round :: us)) :
    RestarsOperand (Nested (k + 1) (.primary e)) e (.opening .round :: ts) us := by
  intro σ hready
  have hσ := hready.callee_eq_none rfl
  have hopen : (σ.next (.opening .round)).callee = none := by
    simp only [next, hσ, Option.isNone_none, if_true]
  obtain ⟨τ, -, hf⟩ := foundIn_of_derives he.derives _ (.inl hopen)
  rw [starred_cons_of_not_end rfl]
  refine ((ih _ (.inl hopen)).close hf).cons (grouped_eq_none hσ) rfl fun h => ?_
  rw [beside_closing] at h
  exact .group h

/-- The items between curly brackets. -/
theorem restarsOperand_braces {es : List Expr}
    (hargs : Nested k (.arguments .curly es) ts (.closing .curly :: us))
    (ih : Restarred k (.arguments .curly es) ts (.closing .curly :: us)) :
    RestarsOperand (Nested k (.primary (.list es))) (.list es) (.opening .curly :: ts) us := by
  intro σ _
  rw [starred_cons_of_not_end rfl]
  exact (ih.close hargs rfl rfl).cons rfl rfl fun h => .braces h

/-- A primary that is not called. A name on its own is one in front of what calls nothing. -/
theorem restarsOperand_plain (hp : Nested k (.primary e) ts us)
    (hfree : e.symbolName?.isSome → headIs opensCall us = false)
    (ih : headIs isSymbol ts = false → RestarsOperand (Nested k (.primary e)) e ts us) :
    RestarsOperand (Nested k (.application e)) e ts us := by
  intro σ hσ
  cases hname : headIs isSymbol ts with
  | false =>
    obtain ⟨g, ht, hsigns, hn⟩ := ih hname σ hσ
    exact ⟨g, ht, hsigns, fun hg => .plain (hn hg) fun he => headIs_beside rfl (hfree he)⟩
  | true =>
    cases hp with
    | @name s us =>
      rw [starred_cons_of_end rfl fun _ => hfree rfl]
      refine ⟨0, (Tally.refl _ us).cons rfl, rfl, fun _ => .plain .name fun _ => ?_⟩
      exact headIs_beside rfl (hfree rfl)
    | integer | decimal | boolean | group | braces => cases hname

/-- A base and its exponent, with the sign between them. -/
theorem restarsOperand_raised (ha : Nested k (.application a) ts (.operation .power :: us))
    (iha : RestarsOperand (Nested k (.application a)) a ts (.operation .power :: us))
    (ihb : RestarsOperand (Nested l (.unary b)) b us vs) :
    RestarsOperand (Nested (max k (l + 1)) (.power (.binary .power a b))) (.binary .power a b)
      ts vs := by
  intro σ hσ
  obtain ⟨g, ht, hsigns, hna⟩ := iha σ hσ
  obtain ⟨σ₁, -, hf⟩ := foundIn_of_derives ha.derives σ hσ
  obtain ⟨g', ht', hsigns', hnb⟩ := ihb (σ₁.next (.operation .power)) (.inl rfl)
  rw [beside_cons rfl rfl] at hsigns hna
  have hproducts := products_binary .power a b (starred us)
  refine ⟨g + g', ht.trans hf (ht'.cons rfl), by omega, fun hg => ?_⟩
  exact .raised (hna (by omega)) (hnb (by omega))

/-- The first argument and those behind it. -/
theorem restarred_arguments {bracket : Bracket} {es : List Expr}
    (hne : headIs (isSign (.closing bracket)) ts = false) (he : Nested k (.expression e) ts us)
    (ihe : RestarsOperand (Nested k (.expression e)) e ts us)
    (ihs : Restarred l (.moreArguments [e] es) us vs) :
    Restarred (max (k + 1) l) (.arguments bracket es) ts vs := by
  intro σ hσ hl
  obtain ⟨g, ht, hsigns, hn⟩ := ihe σ (.inl hσ)
  obtain ⟨σ₁, hs, hf⟩ := foundIn_of_derives he.derives σ (.inl hσ)
  have hlone : σ₁.lone = false := by
    rw [hs.lone, isFresh_of_callee hσ, hl, Bool.false_and]
  obtain ⟨g', ht', hsigns', hn'⟩ := ihs σ₁ hlone
  have hproducts : Expr.productsAll [e] = e.products := rfl
  refine ⟨g + g', ht.trans hf ht', by omega, fun hg => ?_⟩
  exact .arguments (by rwa [headIs_starred]) (hn (by omega)) (hn' (by omega))

/-- A further argument behind its comma. -/
theorem restarred_nextArgument {sofar es : List Expr} (he : Nested k (.expression e) ts us)
    (ihe : RestarsOperand (Nested k (.expression e)) e ts us)
    (ihs : Restarred l (.moreArguments (sofar ++ [e]) es) us vs) :
    Restarred (max (k + 1) l) (.moreArguments sofar es) (.comma :: ts) vs := by
  intro σ _
  obtain ⟨g, ht, hsigns, hn⟩ := ihe (σ.next .comma) (.inl rfl)
  obtain ⟨σ₁, hs, hf⟩ := foundIn_of_derives he.derives (σ.next .comma) (.inl rfl)
  obtain ⟨g', ht', hsigns', hn'⟩ := ihs σ₁ hs.lone
  have hproducts : Expr.productsAll (sofar ++ [e]) = Expr.productsAll sofar + e.products :=
    Expr.productsAll_append sofar [e]
  have hstars : stars (.comma :: starred ts) = stars (starred ts) := rfl
  rw [beside_cons rfl rfl]
  refine ⟨g + g', (ht.trans hf ht').cons rfl, by omega, fun hg => ?_⟩
  exact .nextArgument (hn (by omega)) (hn' (by omega))

/-- What the asterisks change in every phrase that is read. -/
theorem Nested.restarred {φ : Phrase} (h : Nested k φ ts us) : Restarred k φ ts us := by
  induction h with
  | expression ha _ iha ihc =>
    exact iha.chain (foundIn_of_derives ha.derives) ihc fun ha hc => .expression ha hc
  | sum ha _ iha ihc =>
    exact iha.chain (foundIn_of_derives ha.derives) ihc fun ha hc => .sum ha hc
  | product ha _ iha ihc =>
    exact iha.chain (foundIn_of_derives ha.derives) ihc fun ha hc => .product ha hc
  | lastSide hr => exact .refl (.lastSide (headIs_beside rfl hr))
  | lastSummand hr => exact .refl (.lastSummand (headIs_beside rfl hr))
  | lastFactor hr =>
    refine .refl (.lastFactor ?_)
    rwa [beside_of_no_factor hr, headIs_starred]
  | nextSide hb _ ihb ihc =>
    exact ihb.side (foundIn_of_derives hb.derives) ihc fun hb hc => .nextSide hb hc
  | nextSummand hf hb _ ihb ihc =>
    exact ihb.term (foundIn_of_derives hb.derives) ihc fun hb hc => .nextSummand hf hb hc
  | nextFactor hf hb _ ihb ihc =>
    exact ihb.term (foundIn_of_derives hb.derives) ihc fun hb hc => .nextFactor hf hb hc
  | besideName hb _ ihb ihc =>
    exact ihb.factor (foundIn_of_derives hb.derives) ihc rfl fun _ => .inr rfl
  | besideGroup hb _ ihb ihc =>
    exact ihb.factor (foundIn_of_derives hb.derives) ihc rfl fun hs => .inl (hs.free rfl)
  | minus _ ih =>
    intro σ _
    rw [starred_cons_of_not_end rfl]
    exact (ih (σ.next (.operation .subtract)) (.inl rfl)).cons rfl rfl fun h => .minus h
  | plus _ ih =>
    intro σ _
    rw [starred_cons_of_not_end rfl]
    exact (ih (σ.next (.operation .add)) (.inl rfl)).cons rfl rfl fun h => .plus h
  | unsigned hr _ ih =>
    intro σ hσ
    obtain ⟨g, ht, hsigns, hn⟩ := ih σ hσ
    exact ⟨g, ht, hsigns, fun hg => .unsigned (by rwa [headIs_starred]) (hn hg)⟩
  | base hr _ ih =>
    intro σ hσ
    obtain ⟨g, ht, hsigns, hn⟩ := ih σ hσ
    exact ⟨g, ht, hsigns, fun hg => .base (headIs_beside rfl hr) (hn hg)⟩
  | raised ha _ iha ihb => exact restarsOperand_raised ha iha ihb
  | plain hp hfree ih => exact restarsOperand_plain hp hfree ih
  | @call k l s es b ts us vs hb hp hargs ihp iha =>
    -- a bare name is called at once, a name in brackets only once they are closed
    cases hname : headIs isSymbol ts with
    | true =>
      cases hp with
      | name => exact restarsOperand_call_name hb hargs iha
      | group => cases hname
    | false => exact restarsOperand_call_group hb hname hp (ihp hname) hargs iha
  | integer => exact fun _ => restarsOperand_leaf rfl rfl rfl (fun _ => rfl) fun _ => .integer
  | decimal => exact fun _ => restarsOperand_leaf rfl rfl rfl (fun _ => rfl) fun _ => .decimal
  | boolean => exact fun _ => restarsOperand_leaf rfl rfl rfl (fun _ => rfl) fun _ => .boolean
  | name => exact fun h => by cases h
  | group he ih => exact fun _ => restarsOperand_group he ih
  | braces hargs ih => exact fun _ => restarsOperand_braces hargs ih
  | @noArguments b ts =>
    intro σ _ _
    have hsame : starred (.closing b :: ts) = beside (.closing b :: ts) := rfl
    rw [hsame, beside_closing]
    exact ⟨0, .refl σ _, rfl, fun _ => .noArguments⟩
  | arguments hne he _ ihe ihs => exact restarred_arguments hne he ihe ihs
  | lastArgument hr =>
    exact fun σ _ => ⟨0, .refl σ _, rfl, fun _ => .lastArgument (headIs_beside rfl hr)⟩
  | nextArgument he _ ihe ihs => exact restarred_nextArgument he ihe ihs

/-- The number of products of what is read, and of what was read before it. -/
def Phrase.products : Phrase → Nat × Nat
  | .expression e | .sum e | .product e | .unary e | .power e | .application e | .primary e =>
    (0, e.products)
  | .sides a e | .summands a e | .factors a e => (a.products, e.products)
  | .arguments _ es => (0, Expr.productsAll es)
  | .moreArguments sofar es => (Expr.productsAll sofar, Expr.productsAll es)

/-- Every asterisk that is read is a product of the tree. -/
theorem Derives.stars_le {φ : Phrase} (h : Derives φ ts us) :
    φ.products.1 + stars ts ≤ φ.products.2 + stars us := by
  induction h with
  | expression _ _ iha ihc | sum _ _ iha ihc | product _ _ iha ihc =>
    simp only [Phrase.products] at iha ihc ⊢
    omega
  | lastSide | lastSummand | lastFactor | lastArgument => exact Nat.le_refl _
  | @nextSide a b e f ts us vs _ _ ihb ihc =>
    simp only [Phrase.products, Expr.products] at ihb ihc ⊢
    have hstars : stars (.relation f :: ts) = stars ts := rfl
    omega
  | @nextSummand a b e f ts us vs _ _ _ ihb ihc | @nextFactor a b e f ts us vs _ _ _ ihb ihc =>
    have hproducts := products_binary f a b us
    simp only [Phrase.products, stars_cons] at ihb ihc hproducts ⊢
    omega
  | besideName _ _ ihb ihc | besideGroup _ _ ihb ihc =>
    simp only [Phrase.products, Expr.products] at ihb ihc ⊢
    omega
  | minus _ ih | plus _ ih => exact ih
  | unsigned _ _ ih | base _ _ ih | plain _ _ ih => exact ih
  | @raised a b ts us vs _ _ iha ihb =>
    have hstars : stars (.operation .power :: us) = stars us := rfl
    simp only [Phrase.products, Expr.products] at iha ihb ⊢
    omega
  | @call s es b ts us vs _ _ _ ihp iha =>
    have hopen : stars (.opening b :: us) = stars us := rfl
    have hclose : stars (.closing b :: vs) = stars vs := rfl
    simp only [Phrase.products, Expr.products] at ihp iha ⊢
    omega
  | integer | decimal | boolean | name => exact Nat.le_refl _
  | group _ ih | braces _ ih => exact ih
  | noArguments => exact Nat.le_refl _
  | arguments _ _ _ ihe ihs =>
    simp only [Phrase.products, Expr.productsAll] at ihe ihs ⊢
    omega
  | @nextArgument sofar es e ts us vs _ _ ihe ihs =>
    have hcomma : stars (.comma :: ts) = stars ts := rfl
    simp only [Phrase.products, Expr.productsAll_append, Expr.productsAll] at ihe ihs ⊢
    omega

/-! ## Texts -/

/-- The text with an asterisk for each multiplication that has none. -/
def starredText (s : String) : String := String.ofList (starredChars s.toList)

/-- The names in a text that a round bracket calls although round brackets close around them. -/
def groupedCallees (s : String) : List String := start.groups (scanAll s.toList).1

/-- A text that is read is read as the same tree with an asterisk for each multiplication that has
none, unless a round bracket calls a name in round brackets. -/
theorem parse_starredText {s : String} {e : Expr} (h : parse s = .ok e) :
    parse (starredText s) = .ok e ↔ groupedCallees s = [] := by
  obtain ⟨ts, hts, hd, hdepth⟩ := derives_of_parse h
  obtain ⟨k, hk⟩ := hd.nested
  have hlevels : k < maxLevels := by
    rw [parse_of_nested hts hk] at h
    split at h
    · rename_i hlimits
      exact hlimits.1
    · cases h
  have hstarred : scanAll (starredText s).toList = (starred ts, none) := by
    rw [starredText, String.toList_ofList]
    exact scanAll_starredChars hts
  obtain ⟨g, ⟨cs, hcs, rfl⟩, hsigns, hnested⟩ := hk.restarred start (.inl rfl)
  rw [List.append_nil] at hcs
  subst hcs
  have htokens : (scanAll s.toList).1 = ts := congrArg Prod.fst hts
  rw [groupedCallees, htokens, ← List.length_eq_zero_iff]
  constructor
  · intro hparse
    obtain ⟨ts', hts', hd', -⟩ := derives_of_parse hparse
    rw [hstarred] at hts'
    obtain rfl := (Prod.mk.inj hts').1
    have hle : 0 + stars (starred ts) ≤ e.products + stars [] := hd'.stars_le
    have hnil : stars (beside []) = stars [] := rfl
    omega
  · intro hnone
    rw [parse_of_nested hstarred (hnested hnone)]
    exact if_pos ⟨hlevels, hdepth⟩

/-- Products without a sign and an asterisk for each are read as the same tree. -/
theorem parse_starredText_call :
    ∃ e, parse "2x (y)(z+1)^-a[b]c" = .ok e ∧ parse "2*x (y)*(z+1)^-a[b]*c" = .ok e := by
  have hok : (parse "2x (y)(z+1)^-a[b]c").isOk = true := by decide +kernel
  cases h : parse "2x (y)(z+1)^-a[b]c" with
  | error _ =>
    rw [h] at hok
    cases hok
  | ok e =>
    have hstarred : starredText "2x (y)(z+1)^-a[b]c" = "2*x (y)*(z+1)^-a[b]*c" := by
      decide +kernel
    refine ⟨e, rfl, ?_⟩
    rw [← hstarred]
    exact (parse_starredText h).mpr (by decide +kernel)

/-- Round brackets side by side are no product where the first hold a name only: `(a)(b)` calls
`a`, and `(a)*(b)` does not. -/
theorem juxtaposition_misses_groups :
    ¬ ∀ (s : String) (e : Expr), parse s = .ok e → Reaches (parse (starredText s)) e := by
  intro hall
  have hcalls : (parse "(a)(b)").toOption.map Expr.calls = some ["a"] := by decide +kernel
  have hfree : (parse (starredText "(a)(b)")).toOption.map Expr.calls = some [] := by
    decide +kernel
  cases h : parse "(a)(b)" with
  | error _ =>
    rw [h] at hcalls
    cases hcalls
  | ok e =>
    rcases hall "(a)(b)" e h with hstarred | hstarred
    · rw [h] at hcalls
      rw [hstarred] at hfree
      cases hcalls.symm.trans hfree
    · rw [hstarred] at hfree
      cases hfree

end Grammar

end Reckoner
