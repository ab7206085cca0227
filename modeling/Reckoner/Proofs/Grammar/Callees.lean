import Reckoner.Proofs.Grammar.Derivation

/-!
# Called names

Which names an expression calls can be told from its tokens by one pass from left to right that
keeps track of brackets only. A name is called where an opening bracket stands directly behind
it, and also where one stands behind round brackets that hold nothing else than the name and
plus signs. The pass finds the calls of the expression that the grammar reads, in their order.
-/

namespace Reckoner

namespace Expr

mutual

/-- The names of the calls in order of appearance, repetitions included. -/
def calls : Expr → List String
  | exact _ | real _ | symbol _ | boolean _ => []
  | neg a => calls a
  | binary _ a b | compare _ a b => calls a ++ calls b
  | call f as => f :: callsAll as
  | list as => callsAll as

/-- The names of the calls in all trees. -/
def callsAll : List Expr → List String
  | [] => []
  | a :: as => calls a ++ callsAll as

end

theorem callsAll_append (as bs : List Expr) : callsAll (as ++ bs) = callsAll as ++ callsAll bs := by
  induction as with
  | nil => simp only [List.nil_append, callsAll]
  | cons a as ih => simp only [List.cons_append, callsAll, ih, List.append_assoc]

end Expr

/-- What a pass over tokens knows about brackets. -/
structure Bracketing where
  /-- The name that an opening bracket would call here, and whether brackets close around it. -/
  callee : Option (String × Bool)
  /-- Since the innermost open bracket there were plus signs and at most one name. -/
  lone : Bool
  /-- The same about the brackets further out. -/
  outer : List Bool

namespace Bracketing

/-- Nothing but plus signs stands since the innermost open bracket. -/
def isFresh (σ : Bracketing) : Bool := σ.lone && σ.callee.isNone

/-- The name that is called with the token. -/
def called (σ : Bracketing) (t : Token) : Option (String × Bool) :=
  if t.opensCall then σ.callee else none

/-- Go past a token. -/
def next (σ : Bracketing) : Token → Bracketing
  | .name s => ⟨some (s, false), σ.isFresh, σ.outer⟩
  | .operation .add => ⟨none, σ.isFresh, σ.outer⟩
  | .opening .round =>
    if σ.callee.isNone then ⟨none, true, σ.lone :: σ.outer⟩ else ⟨none, false, false :: σ.outer⟩
  | .opening _ => ⟨none, false, false :: σ.outer⟩
  | .closing _ =>
    let callee := if σ.lone then σ.callee.map fun c => (c.1, true) else none
    ⟨callee, σ.outer.headD false && callee.isSome, σ.outer.tail⟩
  | _ => ⟨none, false, σ.outer⟩

/-- The names that are called in the tokens, in order. -/
def callees (σ : Bracketing) : List Token → List (String × Bool)
  | [] => []
  | t :: ts => (σ.called t).toList ++ callees (σ.next t) ts

/-- At the start of a text no bracket is open. -/
def start : Bracketing := ⟨none, false, []⟩

/-- Go past some tokens. -/
def after (σ : Bracketing) (ts : List Token) : Bracketing := ts.foldl next σ

theorem after_append (σ : Bracketing) (ts us : List Token) :
    σ.after (ts ++ us) = (σ.after ts).after us := List.foldl_append

/-- An operand may start here: a name, or anything where no name can be called. -/
def Ready (σ : Bracketing) (ts : List Token) : Prop :=
  σ.callee = none ∨ Grammar.headIs Token.isSymbol ts = true

/-- On the way from one place to another some names are called. -/
structure Finds (σ : Bracketing) (ts : List Token) (names : List String) (σ' : Bracketing)
    (us : List Token) : Prop where
  /-- The pass leads from the first place to the second. -/
  path : ∃ cs, ts = cs ++ us ∧ σ' = σ.after cs
  /-- The names come first among those that are called. -/
  names : (σ.callees ts).map (·.1) = names ++ (σ'.callees us).map (·.1)

variable {σ σ' σ₀ τ : Bracketing} {ts us vs : List Token} {as bs : List String}

/-- In front of a token that is no name nothing can be called. -/
theorem Ready.callee_eq_none {t : Token} (h : σ.Ready (t :: ts)) (ht : t.isSymbol = false) :
    σ.callee = none := by
  rcases h with h | h
  · exact h
  · rw [Grammar.headIs_cons, ht] at h
    cases h

theorem Finds.refl (σ : Bracketing) (ts : List Token) : Finds σ ts [] σ ts :=
  ⟨⟨[], rfl, rfl⟩, rfl⟩

/-- The names of two stretches follow each other. -/
theorem Finds.trans (h : Finds σ ts as τ us) (h' : Finds τ us bs σ' vs) :
    Finds σ ts (as ++ bs) σ' vs := by
  obtain ⟨⟨cs, rfl, rfl⟩, h⟩ := h
  obtain ⟨⟨cs', rfl, rfl⟩, h'⟩ := h'
  refine ⟨⟨cs ++ cs', (List.append_assoc ..).symm, (after_append ..).symm⟩, ?_⟩
  rw [h, h', List.append_assoc]

/-- A token that calls nothing. -/
theorem finds_next {t : Token} (h : σ.called t = none) :
    Finds σ (t :: ts) [] (σ.next t) ts := by
  refine ⟨⟨[t], rfl, rfl⟩, ?_⟩
  simp only [callees, h, Option.toList_none, List.nil_append]

/-- A token that calls a name. -/
theorem finds_call {t : Token} {s : String} {b : Bool} (h : σ.called t = some (s, b)) :
    Finds σ (t :: ts) [s] (σ.next t) ts := by
  refine ⟨⟨[t], rfl, rfl⟩, ?_⟩
  simp only [callees, h, Option.toList_some, List.map_append, List.map_cons, List.map_nil]

/-- Behind an operand: the brackets are those before it, and the operand can be called exactly
if it is a name. -/
structure Settled (e : Expr) (σ₀ σ : Bracketing) (us : List Token) : Prop where
  /-- The brackets further out are the same. -/
  outer : σ.outer = σ₀.outer
  /-- Only a name stands alone. -/
  lone : σ.lone = (σ₀.isFresh && e.symbolName?.isSome)
  /-- A name can be called. -/
  callee : ∀ s, e = .symbol s → ∃ b, σ.callee = some (s, b)
  /-- Nothing else is called behind it. -/
  free : Grammar.headIs Token.opensCall us = true → σ.callee = none

/-- Behind an operand that a token keeps from standing alone. -/
theorem Settled.extend {e b : Expr} (h : Settled b τ σ us) (hτ : τ.isFresh = false)
    (ho : τ.outer = σ₀.outer) (he : e.symbolName? = none) : Settled e σ₀ σ us where
  outer := h.outer.trans ho
  lone := by rw [h.lone, hτ, he, Bool.false_and, Option.isSome_none, Bool.and_false]
  callee s hs := by
    subst hs
    cases he
  free := h.free

/-- Behind an operand a name or a plus sign leaves nothing alone. -/
theorem Settled.isFresh_eq_false {a : Expr} (h : Settled a σ₀ σ us) : σ.isFresh = false := by
  rw [isFresh]
  cases ha : a.symbolName? with
  | none => rw [h.lone, ha, Option.isSome_none, Bool.and_false, Bool.false_and]
  | some s =>
    obtain ⟨b, hb⟩ := h.callee s (Expr.symbolName?_eq_some.mp ha)
    rw [hb, Option.isNone_some, Bool.and_false]

/-- The pass finds the calls of an operand. -/
def FindsOperand (e : Expr) (ts us : List Token) : Prop :=
  ∀ σ : Bracketing, σ.Ready ts → ∃ σ', Settled e σ σ' us ∧ Finds σ ts e.calls σ' us

/-- The pass finds the calls that a chain adds. -/
def FindsChain (a e : Expr) (ts us : List Token) : Prop :=
  ∀ σ₀ σ : Bracketing, Settled a σ₀ σ ts →
    ∃ σ' new, Settled e σ₀ σ' us ∧ e.calls = a.calls ++ new ∧ Finds σ ts new σ' us

/-- The pass finds the calls of a primary, and knows exactly whether it is a name, and whether
brackets close around it. -/
def FindsPrimary (e : Expr) (ts us : List Token) : Prop :=
  ∀ σ : Bracketing, σ.Ready ts → ∃ σ' : Bracketing, σ'.outer = σ.outer ∧
    σ'.lone = (σ.isFresh && e.symbolName?.isSome) ∧ σ'.callee.map (·.1) = e.symbolName? ∧
    (Grammar.headIs Token.isSymbol ts = false → ∀ c ∈ σ'.callee, c.2 = true) ∧
    Finds σ ts e.calls σ' us

/-- The pass finds the calls of arguments that follow others. -/
def FindsArguments (σ : Bracketing) (sofar es : List Expr) (ts us : List Token) : Prop :=
  σ.lone = false → ∃ (σ' : Bracketing) (new : List String), σ'.outer = σ.outer ∧
    σ'.lone = false ∧ Expr.callsAll es = Expr.callsAll sofar ++ new ∧ Finds σ ts new σ' us

/-- A chain that ends adds no call. -/
theorem FindsChain.refl (a : Expr) (ts : List Token) : FindsChain a a ts ts :=
  fun _ σ h => ⟨σ, [], h, (List.append_nil _).symm, .refl σ ts⟩

/-- A chain goes on with a further operand. -/
theorem FindsChain.step {a b e e' : Expr} {ts' : List Token} (hb : FindsOperand b ts' us)
    (hc : FindsChain e' e us vs) (hcalls : e'.calls = a.calls ++ b.calls)
    (he' : e'.symbolName? = none)
    (hτ : ∀ σ₀ σ : Bracketing, Settled a σ₀ σ ts → ∃ τ : Bracketing, τ.Ready ts' ∧
      τ.isFresh = false ∧ τ.outer = σ.outer ∧ Finds σ ts [] τ ts') : FindsChain a e ts vs := by
  intro σ₀ σ hs
  obtain ⟨τ, hready, hfresh, houter, hfirst⟩ := hτ σ₀ σ hs
  obtain ⟨σ₁, hs₁, hf₁⟩ := hb τ hready
  obtain ⟨σ₂, new, hs₂, hnew, hf₂⟩ := hc σ₀ σ₁ (hs₁.extend hfresh (houter.trans hs.outer) he')
  refine ⟨σ₂, b.calls ++ new, hs₂, ?_, hfirst.trans (hf₁.trans hf₂)⟩
  rw [hnew, hcalls, List.append_assoc]

/-- A sign between operands. -/
theorem next_sign {a : Expr} {f : Operation} (hs : Settled a σ₀ σ us) :
    (σ.next (.operation f)).callee = none ∧ (σ.next (.operation f)).isFresh = false ∧
      (σ.next (.operation f)).outer = σ.outer := by
  cases f with
  | add => exact ⟨rfl, by rw [isFresh, next, hs.isFresh_eq_false]; rfl, rfl⟩
  | _ => exact ⟨rfl, rfl, rfl⟩

/-- The pass finds the calls of a phrase. -/
def FoundIn : Grammar.Phrase → List Token → List Token → Prop
  | .expression e, ts, us | .sum e, ts, us | .product e, ts, us | .unary e, ts, us
  | .power e, ts, us | .application e, ts, us => FindsOperand e ts us
  | .sides a e, ts, us | .summands a e, ts, us | .factors a e, ts, us => FindsChain a e ts us
  | .primary e, ts, us => FindsPrimary e ts us
  | .arguments _ es, ts, us => ∀ σ : Bracketing, σ.callee = none → FindsArguments σ [] es ts us
  | .moreArguments sofar es, ts, us => ∀ σ : Bracketing, FindsArguments σ sofar es ts us

/-- An operand and the chain behind it. -/
private theorem FindsOperand.chain {a e : Expr} (h : FindsOperand a ts us)
    (hc : FindsChain a e us vs) : FindsOperand e ts vs := by
  intro σ hσ
  obtain ⟨σ₁, hs₁, hf₁⟩ := h σ hσ
  obtain ⟨σ₂, new, hs₂, hnew, hf₂⟩ := hc σ σ₁ hs₁
  refine ⟨σ₂, hs₂, ?_⟩
  rw [hnew]
  exact hf₁.trans hf₂

/-- A token that is an operand on its own and no name. -/
private theorem findsPrimary_leaf {t : Token} {e : Expr} (hcalls : e.calls = [])
    (he : e.symbolName? = none) (ht : t.opensCall = false)
    (hnext : ∀ σ : Bracketing, σ.next t = ⟨none, false, σ.outer⟩) :
    FindsPrimary e (t :: ts) ts := by
  intro σ _
  refine ⟨σ.next t, ?_, ?_, ?_, ?_, ?_⟩
  · rw [hnext]
  · rw [hnext, he, Option.isSome_none, Bool.and_false]
  · rw [hnext, he]
    rfl
  · rw [hnext]
    exact fun _ => nofun
  · rw [hcalls]
    exact finds_next (by simp only [called, ht, Bool.false_eq_true, if_false])

/-- Behind a bracket that holds more than a name nothing is called. -/
theorem next_closing (h : σ.lone = false) (b : Bracket) :
    σ.next (.closing b) = ⟨none, false, σ.outer.tail⟩ := by
  simp only [next, h, Bool.false_eq_true, if_false, Option.isSome_none, Bool.and_false]

theorem callee_of_map {s : String} (h : σ.callee.map (·.1) = some s) :
    ∃ b, σ.callee = some (s, b) := by
  obtain ⟨⟨_, b⟩, hb, rfl⟩ := Option.map_eq_some_iff.mp h
  exact ⟨b, hb⟩

/-- Where nothing can be called only the plus signs count. -/
theorem isFresh_of_callee (h : σ.callee = none) : σ.isFresh = σ.lone := by
  rw [isFresh, h, Option.isNone_none, Bool.and_true]

/-- The call of a primary that is a name. -/
private theorem findsOperand_call {b : Bracket} {s : String} {es : List Expr}
    (hb : (Token.opening b).opensCall) (ihp : FindsPrimary (.symbol s) ts (.opening b :: us))
    (ihargs : FoundIn (.arguments b es) us (.closing b :: vs)) :
    FindsOperand (.call s es) ts vs := by
  intro σ hσ
  obtain ⟨σ₁, ho₁, -, hc₁, -, hf₁⟩ := ihp σ hσ
  obtain ⟨w, hw⟩ := callee_of_map hc₁
  have hopen : σ₁.next (.opening b) = ⟨none, false, false :: σ.outer⟩ := by
    cases b <;> simp only [next, hw, Option.isNone_some, Bool.false_eq_true, if_false, ho₁]
  have hcall : σ₁.called (.opening b) = some (s, w) := by
    rw [called, if_pos hb, hw]
  obtain ⟨σ₂, new, ho₂, hl₂, hnew, hf₂⟩ :=
    ihargs (σ₁.next (.opening b)) (by rw [hopen]) (by rw [hopen])
  have hclosed : σ₂.next (.closing b) = ⟨none, false, σ.outer⟩ := by
    rw [next_closing hl₂, ho₂, hopen, List.tail_cons]
  refine ⟨σ₂.next (.closing b), ⟨?_, ?_, fun s hs => ?_, fun _ => ?_⟩, ?_⟩
  · rw [hclosed]
  · rw [hclosed]
    exact (Bool.and_false _).symm
  · cases hs
  · rw [hclosed]
  · have hcalls : (Expr.call s es).calls = Expr.calls (.symbol s) ++ [s] ++ new ++ [] := by
      simp only [Expr.calls, hnew, Expr.callsAll, List.nil_append, List.cons_append,
        List.append_nil]
    rw [hcalls]
    exact ((hf₁.trans (finds_call hcall)).trans hf₂).trans (finds_next (t := .closing b) rfl)

/-- Round brackets, behind which the name can be called that stands alone in them. -/
private theorem findsPrimary_group {e : Expr} (ih : FindsOperand e ts (.closing .round :: us)) :
    FindsPrimary e (.opening .round :: ts) us := by
  intro σ hready
  have hσ := hready.callee_eq_none rfl
  have hopen : σ.next (.opening .round) = ⟨none, true, σ.lone :: σ.outer⟩ := by
    simp only [next, hσ, Option.isNone_none, if_true]
  have hcalled : σ.called (.opening .round) = none := hσ
  obtain ⟨σ₁, hs, hf⟩ := ih (σ.next (.opening .round)) (.inl (by rw [hopen]))
  have hlone := hs.lone
  rw [hopen, isFresh_of_callee rfl, Bool.true_and] at hlone
  have hinner : (σ₁.next (.closing .round)).callee.map (·.1) = e.symbolName? := by
    simp only [next, hlone]
    cases he : e.symbolName? with
    | none => rfl
    | some s =>
      obtain ⟨b, hb⟩ := hs.callee s (Expr.symbolName?_eq_some.mp he)
      simp only [hb, Option.isSome_some, if_true, Option.map_some]
  have houter : σ₁.outer = σ.lone :: σ.outer := by rw [hs.outer, hopen]
  refine ⟨σ₁.next (.closing .round), ?_, ?_, hinner, fun _ c hc => ?_, ?_⟩
  · simp only [next, houter, List.tail_cons]
  · rw [← hinner, Option.isSome_map, isFresh_of_callee hσ]
    simp only [next, houter, List.headD_cons]
  · rw [next] at hc
    split at hc
    · obtain ⟨_, -, rfl⟩ := Option.map_eq_some_iff.mp hc
      rfl
    · cases hc
  · have hall := ((finds_next hcalled).trans hf).trans (finds_next (t := .closing .round) rfl)
    rwa [List.nil_append, List.append_nil] at hall

/-- Curly brackets, behind which nothing is called. -/
private theorem findsPrimary_braces {es : List Expr}
    (ih : FoundIn (.arguments .curly es) ts (.closing .curly :: us)) :
    FindsPrimary (.list es) (.opening .curly :: ts) us := by
  intro σ hready
  obtain ⟨σ₁, new, ho, hl, hnew, hf⟩ := ih (σ.next (.opening .curly)) rfl rfl
  have hclosed : σ₁.next (.closing .curly) = ⟨none, false, σ.outer⟩ := by
    rw [next_closing hl, ho]
    rfl
  refine ⟨σ₁.next (.closing .curly), ?_, ?_, ?_, ?_, ?_⟩
  · rw [hclosed]
  · rw [hclosed]
    exact (Bool.and_false _).symm
  · rw [hclosed]
    rfl
  · rw [hclosed]
    exact fun _ => nofun
  · have hcalls : (Expr.list es).calls = [] ++ new ++ [] := by
      simp only [Expr.calls, hnew, Expr.callsAll, List.nil_append, List.append_nil]
    rw [hcalls]
    exact ((finds_next (t := .opening .curly) rfl).trans hf).trans
      (finds_next (t := .closing .curly) rfl)

/-- The pass finds the calls of every phrase that the grammar derives. -/
theorem foundIn_of_derives {φ : Grammar.Phrase} (h : Grammar.Derives φ ts us) :
    FoundIn φ ts us := by
  induction h with
  | expression _ _ iha ihc => exact iha.chain ihc
  | sum _ _ iha ihc => exact iha.chain ihc
  | product _ _ iha ihc => exact iha.chain ihc
  | lastSide => exact .refl _ _
  | lastSummand => exact .refl _ _
  | lastFactor => exact .refl _ _
  | nextSide _ _ ihb ihc =>
    exact .step ihb ihc rfl rfl fun _ σ _ =>
      ⟨σ.next (.relation _), .inl rfl, rfl, rfl, finds_next rfl⟩
  | @nextSummand a b e f _ _ _ _ _ _ ihb ihc =>
    refine .step ihb ihc rfl rfl fun _ σ hs => ?_
    obtain ⟨hcallee, hfresh, houter⟩ := next_sign (f := f) hs
    exact ⟨_, .inl hcallee, hfresh, houter, finds_next rfl⟩
  | @nextFactor a b e f _ _ _ _ _ _ ihb ihc =>
    refine .step ihb ihc rfl rfl fun _ σ hs => ?_
    obtain ⟨hcallee, hfresh, houter⟩ := next_sign (f := f) hs
    exact ⟨_, .inl hcallee, hfresh, houter, finds_next rfl⟩
  | besideName _ _ ihb ihc =>
    exact .step ihb ihc rfl rfl fun _ σ hs => ⟨σ, .inr rfl, hs.isFresh_eq_false, rfl, .refl σ _⟩
  | besideGroup _ _ ihb ihc =>
    exact .step ihb ihc rfl rfl fun _ σ hs =>
      ⟨σ, .inl (hs.free rfl), hs.isFresh_eq_false, rfl, .refl σ _⟩
  | minus _ ih =>
    intro σ _
    obtain ⟨σ', hs, hf⟩ := ih (σ.next (.operation .subtract)) (.inl rfl)
    exact ⟨σ', hs.extend rfl rfl rfl, (finds_next rfl).trans hf⟩
  | @plus e ts us _ ih =>
    -- a plus sign leaves the brackets fresh, so a name behind it still stands alone
    intro σ _
    obtain ⟨σ', hs, hf⟩ := ih (σ.next (.operation .add)) (.inl rfl)
    refine ⟨σ', ⟨hs.outer, ?_, hs.callee, hs.free⟩, (finds_next rfl).trans hf⟩
    rw [hs.lone, isFresh_of_callee rfl]
    rfl
  | unsigned _ _ ih => exact ih
  | base _ _ ih => exact ih
  | raised _ _ iha ihb =>
    intro σ hσ
    obtain ⟨σ₁, hs₁, hf₁⟩ := iha σ hσ
    obtain ⟨σ₂, hs₂, hf₂⟩ := ihb (σ₁.next (.operation .power)) (.inl rfl)
    refine ⟨σ₂, hs₂.extend rfl hs₁.outer rfl, hf₁.trans ?_⟩
    exact (finds_next rfl).trans hf₂
  | @plain e _ us _ hplain ih =>
    intro σ hσ
    obtain ⟨σ', ho, hl, hc, -, hf⟩ := ih σ hσ
    refine ⟨σ', ⟨ho, hl, ?_, ?_⟩, hf⟩
    · rintro s rfl
      exact callee_of_map hc
    · intro hopens
      -- only a name could be called, and behind this one nothing opens a call
      cases he : e.symbolName? with
      | none => rwa [he, Option.map_eq_none_iff] at hc
      | some s =>
        rw [hplain (by rw [he]; rfl)] at hopens
        cases hopens
  | call hb _ _ ihp ihargs => exact findsOperand_call hb ihp ihargs
  | integer => exact findsPrimary_leaf rfl rfl rfl fun _ => rfl
  | decimal => exact findsPrimary_leaf rfl rfl rfl fun _ => rfl
  | boolean => exact findsPrimary_leaf rfl rfl rfl fun _ => rfl
  | @name s ts =>
    intro σ _
    exact ⟨σ.next (.name s), rfl, (Bool.and_true _).symm, rfl, nofun, finds_next rfl⟩
  | group _ ih => exact findsPrimary_group ih
  | braces _ ih => exact findsPrimary_braces ih
  | noArguments => exact fun σ _ hl => ⟨σ, [], rfl, hl, rfl, .refl σ _⟩
  | @arguments b e es ts us vs _ _ _ ihe ihs =>
    intro σ hσ hl
    obtain ⟨σ₁, hs, hf₁⟩ := ihe σ (.inl hσ)
    have hlone : σ₁.lone = false := by
      rw [hs.lone, isFresh_of_callee hσ, hl, Bool.false_and]
    obtain ⟨σ₂, new, ho, hl₂, hnew, hf₂⟩ := ihs σ₁ hlone
    refine ⟨σ₂, e.calls ++ new, ho.trans hs.outer, hl₂, ?_, hf₁.trans hf₂⟩
    simp only [hnew, Expr.callsAll, List.append_nil, List.nil_append]
  | lastArgument => exact fun σ hl => ⟨σ, [], rfl, hl, (List.append_nil _).symm, .refl σ _⟩
  | @nextArgument sofar es e ts us vs _ _ ihe ihs =>
    intro σ hl
    obtain ⟨σ₁, hs, hf₁⟩ := ihe (σ.next .comma) (.inl rfl)
    have hlone : σ₁.lone = false := hs.lone
    obtain ⟨σ₂, new, ho, hl₂, hnew, hf₂⟩ := ihs σ₁ hlone
    refine ⟨σ₂, e.calls ++ new, ho.trans hs.outer, hl₂, ?_, ?_⟩
    · rw [hnew, Expr.callsAll_append, List.append_assoc, Expr.callsAll, Expr.callsAll,
        List.append_nil]
    · exact ((finds_next (t := .comma) rfl).trans hf₁).trans hf₂

/-- The calls of an expression are the names that the pass finds in its tokens. -/
theorem calls_eq_callees {e : Expr} (h : Grammar.Derives (.expression e) ts []) :
    e.calls = (start.callees ts).map (·.1) := by
  obtain ⟨σ', -, hf⟩ := foundIn_of_derives h start (.inl rfl)
  rw [hf.names, callees, List.map_nil, List.append_nil]

private theorem eq_name_of_next {t : Token} {s : String}
    (h : (σ.next t).callee = some (s, false)) : t = .name s := by
  cases t with
  | name s' =>
    cases h
    rfl
  | operation f => cases f <;> cases h
  | opening b =>
    cases b with
    | round =>
      rw [next] at h
      split at h <;> cases h
    | _ => cases h
  | closing b =>
    rw [next] at h
    split at h
    · obtain ⟨c, -, hc⟩ := Option.map_eq_some_iff.mp h
      cases hc
    · cases h
  | _ => cases h

/-- A name without brackets around it stands directly in front of the bracket that calls it. -/
theorem directly_called {s : String} (h : (s, false) ∈ σ.callees ts) :
    (σ.callee = some (s, false) ∧ Grammar.headIs Token.opensCall ts = true) ∨
      ∃ before b behind, (Token.opening b).opensCall = true ∧
        ts = before ++ .name s :: .opening b :: behind := by
  induction ts generalizing σ with
  | nil => cases h
  | cons t ts ih =>
    rw [callees, List.mem_append, Option.mem_toList] at h
    rcases h with hcalled | hlater
    · rw [called] at hcalled
      split at hcalled
      · rename_i ht
        exact .inl ⟨hcalled, ht⟩
      · cases hcalled
    · rcases ih hlater with ⟨hcallee, hopens⟩ | ⟨before, b, behind, hb, rfl⟩
      · obtain ⟨t', ts', rfl⟩ : ∃ t' ts', ts = t' :: ts' := by
          cases ts with
          | nil => cases hopens
          | cons t' ts' => exact ⟨t', ts', rfl⟩
        cases t' with
        | opening b =>
          exact .inr ⟨[], b, ts', hopens, by rw [eq_name_of_next hcallee, List.nil_append]⟩
        | _ => cases hopens
      · exact .inr ⟨t :: before, b, behind, hb, rfl⟩

end Bracketing

end Reckoner
