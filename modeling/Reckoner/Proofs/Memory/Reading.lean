import Reckoner.Proofs.Memory.Splice

/-!
# Spliced tokens are read as the substituted tree

Where a value fits everywhere, the tokens with the value in the place of a name are read as a
tree that agrees with the one in which the value takes the place of the symbol. A number in
front of a name is the one value that is not read as one operand: the name is left over as a
factor of its own, which the product around it takes up.
-/

namespace Reckoner

open Reckoner.Expr Grammar

/-- A closing bracket behind a phrase does not change how it is read. -/
theorem Grammar.Derives.closed {φ : Phrase} {ts us : List Token} (h : Derives φ ts us) (b : Bracket)
    (r : List Token) : Derives φ (ts ++ .closing b :: r) (us ++ .closing b :: r) := by
  have hhead {p : Token → Bool} {us : List Token} (hp : p (.closing b) = false)
      (hu : headIs p us = false) : headIs p (us ++ .closing b :: r) = false := by
    cases us with
    | nil => exact hp
    | cons t us => exact hu
  induction h with
  | expression _ _ iha ihc => exact .expression iha ihc
  | lastSide h => exact .lastSide (hhead rfl h)
  | nextSide _ _ ihb ihc => exact .nextSide ihb ihc
  | sum _ _ iha ihc => exact .sum iha ihc
  | lastSummand h => exact .lastSummand (hhead rfl h)
  | nextSummand hf _ _ ihb ihc => exact .nextSummand hf ihb ihc
  | product _ _ iha ihc => exact .product iha ihc
  | lastFactor h => exact .lastFactor (hhead rfl h)
  | nextFactor hf _ _ ihb ihc => exact .nextFactor hf ihb ihc
  | besideName _ _ ihb ihc => exact .besideName ihb ihc
  | besideGroup _ _ ihb ihc => exact .besideGroup ihb ihc
  | minus _ ih => exact .minus ih
  | plus _ ih => exact .plus ih
  | unsigned h _ ih => exact .unsigned (hhead rfl h) ih
  | base h _ ih => exact .base (hhead rfl h) ih
  | raised _ _ iha ihb => exact .raised iha ihb
  | plain _ h ih => exact .plain ih fun he => hhead rfl (h he)
  | call hb _ _ ihp iha => exact .call hb ihp iha
  | integer => exact .integer
  | decimal => exact .decimal
  | boolean => exact .boolean
  | name => exact .name
  | group _ ih => exact .group ih
  | braces _ ih => exact .braces ih
  | noArguments => exact .noArguments
  | arguments _ _ _ ihe ihs => exact .arguments (ihe.no_closing _) ihe ihs
  | lastArgument h => exact .lastArgument (hhead rfl h)
  | nextArgument _ _ ihe ihs => exact .nextArgument ihe ihs

namespace Filling

variable {x : Filling} {σ σ' : Seam} {e e' a b : Expr} {t : Token} {ts us : List Token}

/-! ## Filled trees -/

/-- Only a symbol becomes a symbol. -/
theorem symbolName?_fill (h : e.symbolName? = none) : (x.fill e).symbolName? = none := by
  cases e <;> first | (rw [fill, substitute]; rfl) | cases h

/-- Another name is left as it is. -/
theorem fill_symbol_of_ne {s : String} (h : s ≠ x.name) : x.fill (.symbol s) = .symbol s := by
  rw [fill, substitute, if_neg h]

/-- The name is exchanged for the value. -/
theorem fill_symbol_name : x.fill (.symbol x.name) = x.value := by
  rw [fill, substitute, if_pos rfl]

variable (x) in
/-- What is read agrees with the filled tree, and is a symbol exactly if that is one. -/
structure Matches (e' e : Expr) : Prop where
  /-- The value is the same whatever the parts mean. -/
  agrees : Agrees e' (x.fill e)
  /-- The symbol is the same, if it is one. -/
  symbolName? : e'.symbolName? = (x.fill e).symbolName?

/-- Operations on operands that match do so as well. -/
theorem Matches.binary {f : Operation} {a' b' : Expr} (ha : x.Matches a' a) (hb : x.Matches b' b) :
    x.Matches (.binary f a' b') (.binary f a b) :=
  ⟨by rw [fill, substitute]; exact ha.agrees.binary f hb.agrees, rfl⟩

/-- Comparisons of sides that match do so as well. -/
theorem Matches.compare {f : Relation} {a' b' : Expr} (ha : x.Matches a' a)
    (hb : x.Matches b' b) : x.Matches (.compare f a' b') (.compare f a b) :=
  ⟨by rw [fill, substitute]; exact ha.agrees.compare f hb.agrees, rfl⟩

/-- Negations of operands that match do so as well. -/
theorem Matches.neg (ha : x.Matches e' e) : x.Matches (.neg e') (.neg e) :=
  ⟨by rw [fill, substitute]; exact ha.agrees.neg, rfl⟩

/-! ## Spliced tokens -/

/-- A token that is not replaced is kept. -/
theorem splice_keep (h : x.replaces t ts = false) :
    x.splice σ (t :: ts) = t :: x.splice (σ.next t) ts := by
  simp only [splice, h, Bool.false_eq_true, if_false, List.singleton_append]

/-- In the place of the name its value is inserted. -/
theorem splice_replace (h : x.replaces t ts = true) :
    x.splice σ (t :: ts) = x.insertion σ ++ x.splice (σ.next t) ts := by
  simp only [splice, h, if_true]

/-- Only a name is replaced. -/
theorem replaces_eq_false (h : t.isSymbol = false) : x.replaces t ts = false := by
  cases t <;> first | rfl | cases h

private theorem startsOperand_of_isLeaf (h : t.isLeaf = true) : t.startsOperand = true := by
  cases t <;> first | rfl | cases h

/-- An operand starts with an atom. -/
theorem Atom.startsOperand (h : Atom ts e) (us : List Token) :
    headIs Token.startsOperand (ts ++ us) = true := by
  cases h with
  | name => rfl
  | leaf hl => exact startsOperand_of_isLeaf hl
  | product hl => exact startsOperand_of_isLeaf hl

/-- What is written in the place of a name starts an operand. -/
theorem Sound.insertion_startsOperand (hx : x.Sound) (σ : Seam) (us : List Token) :
    headIs Token.startsOperand (x.insertion σ ++ us) = true := by
  unfold insertion
  split
  · rename_i hb
    rw [isBare, Bool.and_eq_true] at hb
    exact (hx.atom hb.1).startsOperand us
  · rfl

/-- What is no start of an operand is in front only where it was. -/
theorem Sound.headIs_splice (hx : x.Sound) {p : Token → Bool}
    (hp : ∀ t, t.startsOperand = true → p t = false) (h : headIs p ts = false) :
    headIs p (x.splice σ ts) = false := by
  cases ts with
  | nil => rfl
  | cons t ts =>
    by_cases hr : x.replaces t ts = true
    · rw [splice_replace hr]
      have hs := hx.insertion_startsOperand σ (x.splice (σ.next t) ts)
      cases hi : x.insertion σ ++ x.splice (σ.next t) ts with
      | nil => rfl
      | cons u us =>
        rw [hi] at hs
        exact hp u hs
    · rw [splice_keep (by simpa using hr)]
      exact h

/-- Where no name is in front, the first token is the same. -/
theorem headIs_splice_of_not_symbol {p : Token → Bool} (hs : headIs Token.isSymbol ts = false) :
    headIs p (x.splice σ ts) = headIs p ts := by
  cases ts with
  | nil => rfl
  | cons t ts =>
    rw [splice_keep (replaces_eq_false hs)]
    rfl

/-! ## Places -/

/-- On the way the value goes on to fit. -/
theorem allFit_leads (h : x.allFit σ ts = true) (hl : σ.Leads ts σ' us) :
    x.allFit σ' us = true := by
  obtain ⟨cs, rfl, rfl⟩ := hl
  induction cs generalizing σ with
  | nil => exact h
  | cons t cs ih =>
    rw [List.cons_append, allFit, Bool.and_eq_true] at h
    exact ih h.2

/-- A bracket that can hold arguments follows only where nothing can be called. -/
def Free (σ : Seam) (ts : List Token) : Prop :=
  headIs Token.opensCall ts = true → σ.brackets.callee = none

/-- Behind an operand nothing is called. -/
theorem free_of_finds (h : Bracketing.FindsOperand e ts us) (hr : σ.brackets.Ready ts)
    (hl : σ.Leads ts σ' us) : Free σ' us := by
  obtain ⟨τ, hs, hf⟩ := h σ.brackets hr
  rw [Free, hl.brackets_eq hf]
  exact hs.free

variable (x)

/-- The spliced tokens are read as an operand that matches. -/
def SplicesOperand (phrase : Expr → Phrase) (e : Expr) (ts us : List Token) : Prop :=
  ∀ σ : Seam, σ.brackets.Ready ts → x.allFit σ ts = true →
    ∃ σ', σ.Leads ts σ' us ∧ σ'.afterOperand = true ∧
      ∃ e', x.Matches e' e ∧ Derives (phrase e') (x.splice σ ts) (x.splice σ' us)

/-- The spliced tokens are read as what a chain goes on with. -/
def SplicesChain (phrase : Expr → Expr → Phrase) (a e : Expr) (ts us : List Token) : Prop :=
  ∀ (σ : Seam) (a' : Expr), Free σ ts → σ.afterOperand = true → x.allFit σ ts = true →
    x.Matches a' a → ∃ σ', σ.Leads ts σ' us ∧ σ'.afterOperand = true ∧
      ∃ e', x.Matches e' e ∧ Derives (phrase a' e') (x.splice σ ts) (x.splice σ' us)

/-- The spliced tokens are read as a number, and the name behind it is left over. -/
def LeavesName (phrase : Expr → Phrase) (e : Expr) (ts us : List Token) : Prop :=
  ∃ u s, Agrees (.binary .multiply u (.symbol s)) (x.fill e) ∧ (x.fill e).symbolName? = none ∧
    Derives (phrase u) ts (.name s :: us) ∧ Derives (.power (.symbol s)) (.name s :: us) us

/-- The spliced tokens are read as an operand with its signs, but for a name behind it. -/
def SplicesUnary (e : Expr) (ts us : List Token) : Prop :=
  ∀ σ : Seam, σ.brackets.Ready ts → x.allFit σ ts = true →
    ∃ σ', σ.Leads ts σ' us ∧ σ'.afterOperand = true ∧
      ((∃ e', x.Matches e' e ∧ Derives (.unary e') (x.splice σ ts) (x.splice σ' us)) ∨
        σ.tight = false ∧ x.LeavesName .unary e (x.splice σ ts) (x.splice σ' us))

/-- The same without signs, where the operand is the name alone. -/
def SplicesFactor (phrase : Expr → Phrase) (e : Expr) (ts us : List Token) : Prop :=
  ∀ σ : Seam, σ.brackets.Ready ts → x.allFit σ ts = true →
    ∃ σ', σ.Leads ts σ' us ∧ σ'.afterOperand = true ∧
      ((∃ e', x.Matches e' e ∧ Derives (phrase e') (x.splice σ ts) (x.splice σ' us)) ∨
        ts = .name x.name :: us ∧ σ.tight = false ∧ σ.afterOperand = false ∧
          headIs (Token.isSign (.operation .power)) us = false ∧
          x.LeavesName phrase e (x.splice σ ts) (x.splice σ' us))

/-- The spliced tokens are read as arguments that match. -/
def SplicesArguments (b : Bracket) (es : List Expr) (ts us : List Token) : Prop :=
  ∀ σ : Seam, σ.brackets.callee = none → x.allFit σ ts = true →
    ∃ σ', σ.Leads ts σ' us ∧ ∃ es', AllAgree es' (substituteAll x.name x.value es) ∧
      Derives (.arguments b es') (x.splice σ ts) (x.splice σ' us)

/-- The spliced tokens are read as further arguments that match. -/
def SplicesMore (sofar es : List Expr) (ts us : List Token) : Prop :=
  ∀ (σ : Seam) (sofar' : List Expr), x.allFit σ ts = true →
    AllAgree sofar' (substituteAll x.name x.value sofar) →
    ∃ σ', σ.Leads ts σ' us ∧ ∃ es', AllAgree es' (substituteAll x.name x.value es) ∧
      Derives (.moreArguments sofar' es') (x.splice σ ts) (x.splice σ' us)

/-- The spliced tokens are read as a phrase that matches. -/
def SplicesPhrase : Phrase → List Token → List Token → Prop
  | .expression e, ts, us => x.SplicesOperand .expression e ts us
  | .sides a e, ts, us => x.SplicesChain .sides a e ts us
  | .sum e, ts, us => x.SplicesOperand .sum e ts us
  | .summands a e, ts, us => x.SplicesChain .summands a e ts us
  | .product e, ts, us => x.SplicesOperand .product e ts us
  | .factors a e, ts, us => x.SplicesChain .factors a e ts us
  | .unary e, ts, us => x.SplicesUnary e ts us
  | .power e, ts, us => x.SplicesFactor .power e ts us
  | .application e, ts, us => x.SplicesFactor .application e ts us
  | .primary e, ts, us => (∀ s, ts = .name s :: us → headIs Token.opensCall us = false) →
    x.SplicesFactor .primary e ts us
  | .arguments b es, ts, us => x.SplicesArguments b es ts us
  | .moreArguments sofar es, ts, us => x.SplicesMore sofar es ts us

/-! ## Leaves -/

variable {x}

/-- A number or a truth value is spliced as itself. -/
theorem splicesFactor_leaf (ht : t.isLeaf = true) (he : x.fill e = e)
    (hd : ∀ us, Derives (.primary e) (t :: us) us) : x.SplicesFactor .primary e (t :: us) us := by
  intro σ _ _
  have hkeep : x.replaces t us = false := by
    cases t <;> first | rfl | cases ht
  have hlast : (σ.next t).afterOperand = true := by
    cases t <;> first | rfl | cases ht
  refine ⟨σ.next t, .next σ t us, hlast, .inl ⟨e, ⟨?_, ?_⟩, ?_⟩⟩
  · rw [he]
    exact Agrees.refl e
  · rw [he]
  · rw [splice_keep hkeep]
    exact hd _

/-- Brackets do not follow a symbol that they would call. -/
theorem fitsBracketed_eq_false {s : String} {w : Bool} (hc : σ.brackets.callee = some (s, w))
    (hs : (x.fill (.symbol s)).symbolName? ≠ none) : x.fitsBracketed σ = false := by
  rw [fitsBracketed, hc, Option.all_some, Bool.and_eq_false_iff, beq_eq_false_iff_ne]
  by_cases h : s = x.name
  · subst h
    rw [fill_symbol_name] at hs
    right
    rwa [Option.isNone_eq_false_iff, Option.isSome_iff_ne_none]
  · exact .inl h

/-- Behind an atom nothing is called. -/
theorem Atom.no_opensCall (h : Atom ts e) (us : List Token) :
    headIs Token.opensCall (ts ++ us) = false := by
  have hleaf {t : Token} (ht : t.isLeaf = true) : t.opensCall = false := by
    cases t <;> first | rfl | cases ht
  cases h with
  | name => rfl
  | leaf hl => exact hleaf hl
  | product hl => exact hleaf hl

/-- No bracket that can hold arguments comes up behind a symbol. -/
theorem Sound.no_opensCall (hx : x.Sound) (h : headIs Token.opensCall ts = false)
    (hf : x.allFit σ ts = true) (hno : x.isBare σ = false → x.fitsBracketed σ = false) :
    headIs Token.opensCall (x.splice σ ts) = false := by
  cases ts with
  | nil => rfl
  | cons t ts =>
    by_cases hr : x.replaces t ts = true
    · rw [allFit, Bool.and_eq_true, fits, if_pos hr] at hf
      rw [splice_replace hr, insertion]
      by_cases hb : x.isBare σ = true
      · rw [if_pos hb]
        rw [isBare, Bool.and_eq_true] at hb
        exact (hx.atom hb.1).no_opensCall _
      · rw [if_neg hb] at hf
        rw [hno (by simpa using hb)] at hf
        cases hf.1
    · rw [splice_keep (by simpa using hr)]
      exact h

/-- A name that is not called is read as the value that takes its place. -/
theorem splicesFactor_name (hx : x.Sound) {s : String} (hcall : headIs Token.opensCall us = false) :
    x.SplicesFactor .primary (.symbol s) (.name s :: us) us := by
  intro σ _ hf
  have hlast : (σ.next (.name s)).afterOperand = true := rfl
  refine ⟨σ.next (.name s), .next σ _ us, hlast, ?_⟩
  by_cases hs : s = x.name
  · subst hs
    have hr : x.replaces (.name x.name) us = true := by
      rw [replaces, hcall, beq_self_eq_true]
      rfl
    have hnext : x.allFit (σ.next (.name x.name)) us = true := allFit_leads hf (.next σ _ us)
    rw [allFit, Bool.and_eq_true, fits, if_pos hr] at hf
    rw [splice_replace hr, insertion]
    by_cases hb : x.isBare σ = true
    · have hatomic := hb
      rw [isBare, Bool.and_eq_true] at hatomic
      have hfit := hf.1
      rw [if_pos hb, fitsBare] at hfit
      rw [if_pos hb]
      have hbare : x.isBare (σ.next (.name x.name)) = true := by
        rw [isBare, hatomic.1]
        rfl
      have hopens := hx.no_opensCall hcall hnext fun h => by
        rw [hbare] at h
        cases h
      have hvalue : x.fill (.symbol x.name) = x.value := fill_symbol_name
      have hatom := hx.atom hatomic.1
      generalize x.tokens = tokens at hatom hfit
      generalize x.value = value at hatom hvalue
      cases hatom with
      | name y => exact .inl ⟨_, ⟨by rw [hvalue]; exact .refl _, by rw [hvalue]⟩, .name⟩
      | leaf hl hn hd => exact .inl ⟨_, ⟨by rw [hvalue]; exact .refl _, by rw [hvalue]⟩, hd _⟩
      | @product t u y hl hn hd =>
        -- the number is the factor that is read, and its name is left over as the next one
        simp only [Bool.and_eq_true, Bool.not_eq_true'] at hfit
        obtain ⟨⟨⟨hoperand, htight⟩, hpower⟩, -⟩ := hfit
        refine .inr ⟨rfl, htight, hoperand, hpower, u, y, by rw [hvalue]; exact .refl _,
          by rw [hvalue]; rfl, hd _, ?_⟩
        refine .base (hx.headIs_splice (fun t ht => ?_) hpower) (.plain .name fun _ => hopens)
        cases t <;> first | rfl | cases ht
    · rw [if_neg hb]
      refine .inl ⟨x.value, ⟨?_, ?_⟩, ?_⟩
      · rw [fill_symbol_name]
        exact .refl _
      · rw [fill_symbol_name]
      · rw [List.cons_append, List.append_assoc]
        exact .group (hx.derives.closed .round _)
  · have hr : x.replaces (.name s) us = false := by
      rw [replaces, beq_eq_false_iff_ne.mpr hs, Bool.false_and]
    refine .inl ⟨.symbol s, ⟨?_, ?_⟩, ?_⟩
    · rw [fill_symbol_of_ne hs]
      exact .refl _
    · rw [fill_symbol_of_ne hs]
    · rw [splice_keep hr]
      exact .name

/-! ## Brackets -/

variable {vs : List Token} {es : List Expr} {bracket : Bracket}

/-- What stands in round brackets is spliced in them. -/
theorem splicesFactor_group (h : x.SplicesOperand .expression e ts (.closing .round :: us)) :
    x.SplicesFactor .primary e (.opening .round :: ts) us := by
  intro σ hr hf
  have hcallee := hr.callee_eq_none rfl
  have hready : (σ.next (.opening .round)).brackets.Ready ts := .inl (by
    simp only [Seam.next, Bracketing.next, hcallee, Option.isNone_none, if_true])
  obtain ⟨σ₁, hl, -, e', hm, hd⟩ := h _ hready (allFit_leads hf (.next σ _ ts))
  refine ⟨σ₁.next (.closing .round), ?_, rfl, .inl ⟨e', hm, ?_⟩⟩
  · exact (Seam.Leads.next σ _ ts).trans (hl.trans (.next σ₁ _ us))
  · rw [splice_keep rfl]
    rw [splice_keep rfl] at hd
    exact .group hd

/-- A list is spliced item by item. -/
theorem splicesFactor_braces (h : x.SplicesArguments .curly es ts (.closing .curly :: us)) :
    x.SplicesFactor .primary (.list es) (.opening .curly :: ts) us := by
  intro σ hr hf
  obtain ⟨σ₁, hl, es', hm, hd⟩ := h _ rfl (allFit_leads hf (.next σ _ ts))
  refine ⟨σ₁.next (.closing .curly), ?_, rfl, .inl ⟨.list es', ⟨?_, rfl⟩, ?_⟩⟩
  · exact (Seam.Leads.next σ _ ts).trans (hl.trans (.next σ₁ _ us))
  · rw [fill, substitute]
    exact hm.list
  · rw [splice_keep rfl]
    rw [splice_keep rfl] at hd
    exact .braces hd

/-- Behind a primary stands its name, if it is one. -/
theorem callee_of_primary (h : Derives (.primary e) ts us) (hr : σ.brackets.Ready ts)
    (hl : σ.Leads ts σ' us) : σ'.brackets.callee.map (·.1) = e.symbolName? ∧
      (headIs Token.isSymbol ts = false → ∀ c ∈ σ'.brackets.callee, c.2 = true) := by
  obtain ⟨τ, -, -, hc, hw, hf⟩ := Bracketing.foundIn_of_derives h σ.brackets hr
  rw [hl.brackets_eq hf]
  exact ⟨hc, hw⟩

/-- An operand that calls nothing is spliced as it is. -/
theorem splicesFactor_plain (hx : x.Sound) (hp : Derives (.primary e) ts us)
    (hcall : e.symbolName?.isSome → headIs Token.opensCall us = false)
    (h : x.SplicesFactor .primary e ts us) : x.SplicesFactor .application e ts us := by
  intro σ hr hf
  obtain ⟨σ', hl, ho, hread⟩ := h σ hr hf
  refine ⟨σ', hl, ho, ?_⟩
  rcases hread with ⟨e', hm, hd⟩ | ⟨hts, htight, hoperand, hpower, u, s, hu, hn, hd, hs⟩
  · refine .inl ⟨e', hm, .plain hd fun he' => ?_⟩
    rw [hm.symbolName?] at he'
    cases he : e.symbolName? with
    | none =>
      rw [symbolName?_fill he] at he'
      cases he'
    | some s =>
      obtain rfl := symbolName?_eq_some.mp he
      have hc := (callee_of_primary hp hr hl).1
      rw [he] at hc
      obtain ⟨⟨_, w⟩, hcallee, rfl⟩ := Option.map_eq_some_iff.mp hc
      refine hx.no_opensCall (hcall (by rw [he]; rfl)) (allFit_leads hf hl) fun _ => ?_
      exact fitsBracketed_eq_false hcallee (Option.isSome_iff_ne_none.mp he')
  · exact .inr ⟨hts, htight, hoperand, hpower, u, s, hu, hn, .plain hd fun _ => rfl, hs⟩

/-- The brackets behind a bracketed name still call it. -/
theorem symbolName?_of_keepsCallee {s : String} (hc : σ.brackets.callee = some (s, true))
    (hf : x.keepsCallee σ = true) : (x.fill (.symbol s)).symbolName? = some s := by
  rw [keepsCallee, hc, Option.all_some, Bool.not_true, Bool.false_or, Bool.or_eq_true, bne_iff_ne,
    beq_iff_eq] at hf
  by_cases h : s = x.name
  · subst h
    rw [fill_symbol_name]
    exact hf.resolve_left fun hne => hne rfl
  · rw [fill_symbol_of_ne h]
    rfl

/-- A call is spliced in its arguments, and its name may be in brackets. -/
theorem splicesFactor_call {s : String} (hb : (Token.opening bracket).opensCall = true)
    (hp : Derives (.primary (.symbol s)) ts (.opening bracket :: us))
    (h : headIs Token.isSymbol ts = false →
      x.SplicesFactor .primary (.symbol s) ts (.opening bracket :: us))
    (ha : x.SplicesArguments bracket es us (.closing bracket :: vs)) :
    x.SplicesFactor .application (.call s es) ts vs := by
  intro σ hr hf
  -- the name is read as it stands, bare or in brackets
  have hname : ∃ σ₁, σ.Leads ts σ₁ (.opening bracket :: us) ∧
      (∃ w, σ₁.brackets.callee = some (s, w)) ∧
      Derives (.primary (.symbol s)) (x.splice σ ts) (x.splice σ₁ (.opening bracket :: us)) := by
    by_cases hts : headIs Token.isSymbol ts = true
    · cases hp with
      | name =>
        have hkeep : x.replaces (.name s) (.opening bracket :: us) = false := by
          rw [replaces, headIs_cons, hb, Bool.not_true, Bool.and_false]
        refine ⟨σ.next (.name s), .next σ _ _, ⟨false, rfl⟩, ?_⟩
        rw [splice_keep hkeep]
        exact .name
      | group => cases hts
    · have hts : headIs Token.isSymbol ts = false := by simpa using hts
      obtain ⟨σ₁, hl, -, hread⟩ := h hts σ hr hf
      obtain ⟨hc, hw⟩ := callee_of_primary hp hr hl
      obtain ⟨⟨_, w⟩, hcallee, rfl⟩ := Option.map_eq_some_iff.mp hc
      obtain rfl : w = true := hw hts _ hcallee
      refine ⟨σ₁, hl, ⟨true, hcallee⟩, ?_⟩
      rcases hread with ⟨e', hm, hd⟩ | ⟨rfl, -⟩
      · have hfit := allFit_leads hf hl
        have hkeep : x.replaces (.opening bracket) us = false := rfl
        simp only [allFit, Bool.and_eq_true, fits, hkeep, hb, Bool.false_eq_true, if_false,
          Bool.not_true, Bool.false_or] at hfit
        have he' := hm.symbolName?
        rw [symbolName?_of_keepsCallee hcallee hfit.1] at he'
        rwa [symbolName?_eq_some.mp he'] at hd
      · cases hts
  obtain ⟨σ₁, hl₁, ⟨w, hc⟩, hd₁⟩ := hname
  have hopen : (σ₁.next (.opening bracket)).brackets.callee = none := by
    cases bracket <;> simp only [Seam.next, Bracketing.next, hc, Option.isNone_some,
      Bool.false_eq_true, if_false]
  have hl₂ := hl₁.trans (.next σ₁ _ us)
  obtain ⟨σ₂, hl₃, es', hm, hd₂⟩ := ha _ hopen (allFit_leads hf hl₂)
  refine ⟨σ₂.next (.closing bracket), hl₂.trans (hl₃.trans (.next σ₂ _ vs)), rfl,
    .inl ⟨.call s es', ⟨?_, rfl⟩, ?_⟩⟩
  · rw [fill, substitute]
    exact hm.call s
  · rw [splice_keep rfl] at hd₁ hd₂
    exact .call hb hd₁ hd₂

/-! ## Powers and signs -/

private theorem isPower_of_startsOperand (t : Token) (h : t.startsOperand = true) :
    (Token.operation .power).isSign t = false := by
  cases t <;> first | rfl | cases h

/-- An operand without an exponent is spliced as it is. -/
theorem splicesFactor_base (hx : x.Sound)
    (hpower : headIs (Token.isSign (.operation .power)) us = false)
    (h : x.SplicesFactor .application e ts us) : x.SplicesFactor .power e ts us := by
  intro σ hr hf
  obtain ⟨σ', hl, ho, hread⟩ := h σ hr hf
  refine ⟨σ', hl, ho, ?_⟩
  rcases hread with ⟨e', hm, hd⟩ | ⟨hts, htight, hoperand, hp, u, s, hu, hn, hd, hs⟩
  · exact .inl ⟨e', hm, .base (hx.headIs_splice isPower_of_startsOperand hpower) hd⟩
  · exact .inr ⟨hts, htight, hoperand, hp, u, s, hu, hn, .base rfl hd, hs⟩

/-- A power is spliced in its base and its exponent. -/
theorem splicesFactor_raised (ha : x.SplicesFactor .application a ts (.operation .power :: us))
    (hb : x.SplicesUnary b us vs) : x.SplicesFactor .power (.binary .power a b) ts vs := by
  intro σ hr hf
  obtain ⟨σ₁, hl₁, -, hread⟩ := ha σ hr hf
  rcases hread with ⟨a', hma, hda⟩ | ⟨-, -, -, hpower, -⟩
  · have hl := hl₁.trans (.next σ₁ _ us)
    obtain ⟨σ₂, hl₂, ho, hread⟩ := hb (σ₁.next (.operation .power)) (.inl rfl) (allFit_leads hf hl)
    rcases hread with ⟨b', hmb, hdb⟩ | ⟨htight, -⟩
    · refine ⟨σ₂, hl.trans hl₂, ho, .inl ⟨_, hma.binary hmb, ?_⟩⟩
      rw [splice_keep rfl] at hda
      exact .raised hda hdb
    · cases htight
  · cases hpower

/-- An operand without signs is spliced as it is. -/
theorem splicesUnary_unsigned (h : x.SplicesFactor .power e ts us) : x.SplicesUnary e ts us := by
  intro σ hr hf
  obtain ⟨σ', hl, ho, hread⟩ := h σ hr hf
  refine ⟨σ', hl, ho, ?_⟩
  rcases hread with ⟨e', hm, hd⟩ | ⟨-, htight, -, -, u, s, hu, hn, hd, hs⟩
  · exact .inl ⟨e', hm, hd.unary_of_power⟩
  · exact .inr ⟨htight, u, s, hu, hn, hd.unary_of_power, hs⟩

/-- A minus sign stays in front of what is spliced. -/
theorem splicesUnary_minus (h : x.SplicesUnary e ts us) :
    x.SplicesUnary (.neg e) (.operation .subtract :: ts) us := by
  intro σ _ hf
  obtain ⟨σ', hl, ho, hread⟩ := h (σ.next (.operation .subtract)) (.inl rfl)
    (allFit_leads hf (.next σ _ ts))
  refine ⟨σ', (Seam.Leads.next σ _ ts).trans hl, ho, ?_⟩
  rw [splice_keep rfl]
  rcases hread with ⟨e', hm, hd⟩ | ⟨htight, u, s, hu, -, hd, hs⟩
  · exact .inl ⟨.neg e', hm.neg, .minus hd⟩
  · refine .inr ⟨htight, .neg u, s, fun i => ?_, rfl, .minus hd, hs⟩
    have hi := hu i
    simp only [fill, substitute, Interpretation.value, Interpretation.operation] at hi ⊢
    rw [← hi, neg_mul]

/-- A plus sign stays in front of what is spliced. -/
theorem splicesUnary_plus (h : x.SplicesUnary e ts us) :
    x.SplicesUnary e (.operation .add :: ts) us := by
  intro σ _ hf
  obtain ⟨σ', hl, ho, hread⟩ := h (σ.next (.operation .add)) (.inl rfl)
    (allFit_leads hf (.next σ _ ts))
  refine ⟨σ', (Seam.Leads.next σ _ ts).trans hl, ho, ?_⟩
  rw [splice_keep rfl]
  rcases hread with ⟨e', hm, hd⟩ | ⟨htight, u, s, hu, hn, hd, hs⟩
  · exact .inl ⟨e', hm, .plus hd⟩
  · exact .inr ⟨htight, u, s, hu, hn, .plus hd, hs⟩

/-! ## Chains -/

/-- Where a chain ends it is spliced to its end. -/
theorem splicesChain_last {phrase : Expr → Expr → Phrase}
    (hd : ∀ (σ : Seam) (a' : Expr), Derives (phrase a' a') (x.splice σ ts) (x.splice σ ts)) :
    x.SplicesChain phrase a a ts ts :=
  fun σ a' _ ho _ hm => ⟨σ, .refl σ ts, ho, a', hm, hd σ a'⟩

/-- An operand and the chain behind it. -/
theorem splicesOperand_chain {operand phrase : Expr → Phrase} {chain : Expr → Expr → Phrase}
    (hfinds : Bracketing.FindsOperand a ts us) (ha : x.SplicesOperand operand a ts us)
    (hc : x.SplicesChain chain a e us vs)
    (hd : ∀ {a' e' ts' us' vs'}, Derives (operand a') ts' us' → Derives (chain a' e') us' vs' →
      Derives (phrase e') ts' vs') : x.SplicesOperand phrase e ts vs := by
  intro σ hr hf
  obtain ⟨σ₁, hl₁, ho₁, a', hm, hda⟩ := ha σ hr hf
  obtain ⟨σ₂, hl₂, ho₂, e', hm', hdc⟩ :=
    hc σ₁ a' (free_of_finds hfinds hr hl₁) ho₁ (allFit_leads hf hl₁) hm
  exact ⟨σ₂, hl₁.trans hl₂, ho₂, e', hm', hd hda hdc⟩

/-- A product is spliced in its first factor and in the chain behind it. -/
theorem splicesOperand_product (hfinds : Bracketing.FindsOperand a ts us)
    (ha : x.SplicesUnary a ts us) (hc : x.SplicesChain .factors a e us vs) :
    x.SplicesOperand .product e ts vs := by
  intro σ hr hf
  obtain ⟨σ₁, hl₁, ho₁, hread⟩ := ha σ hr hf
  have hrest (a' : Expr) (hm : x.Matches a' a) :=
    hc σ₁ a' (free_of_finds hfinds hr hl₁) ho₁ (allFit_leads hf hl₁) hm
  rcases hread with ⟨a', hm, hda⟩ | ⟨-, u, s, hu, hn, hda, hs⟩
  · obtain ⟨σ₂, hl₂, ho₂, e', hm', hdc⟩ := hrest a' hm
    exact ⟨σ₂, hl₁.trans hl₂, ho₂, e', hm', .product hda hdc⟩
  · obtain ⟨σ₂, hl₂, ho₂, e', hm', hdc⟩ := hrest _ ⟨hu, hn.symm⟩
    exact ⟨σ₂, hl₁.trans hl₂, ho₂, e', hm', .product hda (.besideName hs hdc)⟩

/-- A further operand behind a sign. -/
theorem splicesChain_next {phrase : Expr → Phrase} {chain : Expr → Expr → Phrase} {c : Expr}
    (ht : t.isSymbol = false) (hready : ∀ σ : Seam, (σ.next t).brackets.Ready ts)
    (hfinds : Bracketing.FindsOperand b ts us) (hb : x.SplicesOperand phrase b ts us)
    (hc : x.SplicesChain chain c e us vs)
    (hm : ∀ {a' b'}, x.Matches a' a → x.Matches b' b → ∃ c', x.Matches c' c ∧
      ∀ {e' ts' us' vs'}, Derives (phrase b') ts' us' → Derives (chain c' e') us' vs' →
        Derives (chain a' e') (t :: ts') vs') : x.SplicesChain chain a e (t :: ts) vs := by
  intro σ a' _ _ hf hma
  obtain ⟨σ₁, hl₁, ho₁, b', hmb, hdb⟩ := hb (σ.next t) (hready σ) (allFit_leads hf (.next σ t ts))
  have hl := (Seam.Leads.next σ t ts).trans hl₁
  obtain ⟨c', hmc, hd⟩ := hm hma hmb
  obtain ⟨σ₂, hl₂, ho₂, e', hme, hdc⟩ :=
    hc σ₁ c' (free_of_finds hfinds (hready σ) hl₁) ho₁ (allFit_leads hf hl) hmc
  refine ⟨σ₂, hl.trans hl₂, ho₂, e', hme, ?_⟩
  rw [splice_keep (replaces_eq_false ht)]
  exact hd hdb hdc

/-- A factor behind a sign is spliced, and so is the chain behind it. -/
theorem splicesChain_factor {f : Operation} (hf : (Token.operation f).startsFactor = true)
    (hfinds : Bracketing.FindsOperand b ts us) (hb : x.SplicesUnary b ts us)
    (hc : x.SplicesChain .factors (.binary f a b) e us vs) :
    x.SplicesChain .factors a e (.operation f :: ts) vs := by
  intro σ a' _ _ hfit hma
  have hready : (σ.next (.operation f)).brackets.Ready ts := .inl (by cases f <;> rfl)
  obtain ⟨σ₁, hl₁, ho₁, hread⟩ := hb _ hready (allFit_leads hfit (.next σ _ ts))
  have hl := (Seam.Leads.next σ (.operation f) ts).trans hl₁
  have hrest (c' : Expr) (hm : x.Matches c' (.binary f a b)) :=
    hc σ₁ c' (free_of_finds hfinds hready hl₁) ho₁ (allFit_leads hfit hl) hm
  rw [splice_keep rfl]
  rcases hread with ⟨b', hmb, hdb⟩ | ⟨htight, u, s, hu, hn, hdb, hs⟩
  · obtain ⟨σ₂, hl₂, ho₂, e', hme, hdc⟩ := hrest _ (hma.binary hmb)
    exact ⟨σ₂, hl.trans hl₂, ho₂, e', hme, .nextFactor hf hdb hdc⟩
  · -- a quotient is no place for a number in front of a name, a product is one
    have hmultiply : f = .multiply := by
      cases f with
      | multiply => rfl
      | divide => exact Bool.noConfusion (show true = false from htight)
      | _ => cases hf
    subst hmultiply
    have hm : x.Matches (.binary .multiply (.binary .multiply a' u) (.symbol s))
        (.binary .multiply a b) := by
      refine ⟨fun i => ?_, rfl⟩
      have hi := hu i
      have hia := hma.agrees i
      simp only [fill, substitute, Interpretation.value, Interpretation.operation] at hi hia ⊢
      rw [hia, ← hi, mul_assoc]
    obtain ⟨σ₂, hl₂, ho₂, e', hme, hdc⟩ := hrest _ hm
    exact ⟨σ₂, hl.trans hl₂, ho₂, e', hme, .nextFactor hf hdb (.besideName hs hdc)⟩

/-- Behind an operand a name stays a name or becomes brackets. -/
theorem Sound.splice_behind (hx : x.Sound) {s : String} (ho : σ.afterOperand = true)
    (hf : x.allFit σ (.name s :: ts) = true) :
    (∃ y us, x.splice σ (.name s :: ts) = .name y :: us) ∨
      ∃ us, x.splice σ (.name s :: ts) = .opening .round :: us := by
  by_cases hr : x.replaces (.name s) ts = true
  · rw [allFit, Bool.and_eq_true, fits, if_pos hr] at hf
    rw [splice_replace hr, insertion]
    by_cases hb : x.isBare σ = true
    · have hatomic := hb
      rw [isBare, Bool.and_eq_true] at hatomic
      have hfit := hf.1
      rw [if_pos hb, fitsBare, ho] at hfit
      rw [if_pos hb]
      have hatom := hx.atom hatomic.1
      generalize x.tokens = tokens at hatom hfit
      generalize x.value = value at hatom
      cases hatom with
      | name y => exact .inl ⟨y, _, rfl⟩
      | @leaf t _ hl =>
        cases t <;>
          first | exact absurd hfit Bool.false_ne_true | exact absurd hl Bool.false_ne_true
      | @product t => cases t <;> exact absurd hfit Bool.false_ne_true
    · rw [if_neg hb]
      exact .inr ⟨_, rfl⟩
  · rw [splice_keep (by simpa using hr)]
    exact .inl ⟨s, _, rfl⟩

/-- A further factor directly behind an operand. -/
theorem splicesChain_beside (hx : x.Sound) {ts : List Token}
    (hts : headIs Token.isSymbol ts = true ∨ ∃ ts', ts = .opening .round :: ts')
    (hfinds : Bracketing.FindsOperand b ts us) (hb : x.SplicesFactor .power b ts us)
    (hc : x.SplicesChain .factors (.binary .multiply a b) e us vs) :
    x.SplicesChain .factors a e ts vs := by
  intro σ a' hfree ho hf hma
  have hready : σ.brackets.Ready ts := by
    rcases hts with hname | ⟨ts', rfl⟩
    · exact .inr hname
    · exact .inl (hfree rfl)
  obtain ⟨σ₁, hl₁, ho₁, hread⟩ := hb σ hready hf
  rcases hread with ⟨b', hmb, hdb⟩ | ⟨-, -, hoperand, -⟩
  · obtain ⟨σ₂, hl₂, ho₂, e', hme, hdc⟩ := hc σ₁ _ (free_of_finds hfinds hready hl₁) ho₁
      (allFit_leads hf hl₁) (hma.binary hmb)
    refine ⟨σ₂, hl₁.trans hl₂, ho₂, e', hme, ?_⟩
    have hhead : (∃ y us, x.splice σ ts = .name y :: us) ∨
        ∃ us, x.splice σ ts = .opening .round :: us := by
      rcases hts with hname | ⟨ts', rfl⟩
      · cases ts with
        | nil => cases hname
        | cons t ts =>
          cases t with
          | name s => exact hx.splice_behind ho hf
          | _ => cases hname
      · exact .inr ⟨_, splice_keep rfl⟩
    rcases hhead with ⟨y, us', heq⟩ | ⟨us', heq⟩
    · rw [heq] at hdb ⊢
      exact .besideName hdb hdc
    · rw [heq] at hdb ⊢
      exact .besideGroup hdb hdc
  · rw [ho] at hoperand
    cases hoperand

/-! ## Arguments -/

private theorem substituteAll_append (s : String) (v : Expr) (as bs : List Expr) :
    substituteAll s v (as ++ bs) = substituteAll s v as ++ substituteAll s v bs := by
  induction as with
  | nil => simp only [List.nil_append, substituteAll]
  | cons a as ih => simp only [List.cons_append, substituteAll, ih]

private theorem values_append (i : Interpretation) (as bs : List Expr) :
    i.values (as ++ bs) = i.values as ++ i.values bs := by
  simp only [Interpretation.values_eq_map, List.map_append]

/-- No arguments are spliced to none. -/
theorem splicesArguments_none : x.SplicesArguments bracket [] (.closing bracket :: ts)
    (.closing bracket :: ts) := by
  intro σ _ _
  refine ⟨σ, .refl σ _, [], ?_, ?_⟩
  · rw [substituteAll]
    exact AllAgree.nil
  · rw [splice_keep rfl]
    exact .noArguments

/-- A first argument is spliced, and so are those behind it. -/
theorem splicesArguments_some (h : x.SplicesOperand .expression e ts us)
    (hs : x.SplicesMore [e] es us vs) : x.SplicesArguments bracket es ts vs := by
  intro σ hc hf
  obtain ⟨σ₁, hl₁, -, e', hm, hd⟩ := h σ (.inl hc) hf
  obtain ⟨σ₂, hl₂, es', hms, hds⟩ := hs σ₁ [e'] (allFit_leads hf hl₁) (by
    rw [substituteAll, substituteAll]
    exact AllAgree.cons hm.agrees AllAgree.nil)
  exact ⟨σ₂, hl₁.trans hl₂, es', hms, .arguments (hd.no_closing bracket) hd hds⟩

/-- Where no comma follows the arguments end. -/
theorem splicesMore_last (hx : x.Sound) (h : headIs (Token.isSign .comma) ts = false) :
    x.SplicesMore es es ts ts := by
  intro σ sofar' _ hm
  refine ⟨σ, .refl σ ts, sofar', hm, .lastArgument (hx.headIs_splice (fun t ht => ?_) h)⟩
  cases t <;> first | rfl | cases ht

/-- An argument behind a comma is spliced, and so are those behind it. -/
theorem splicesMore_next {sofar : List Expr} (h : x.SplicesOperand .expression e ts us)
    (hs : x.SplicesMore (sofar ++ [e]) es us vs) : x.SplicesMore sofar es (.comma :: ts) vs := by
  intro σ sofar' hf hm
  obtain ⟨σ₁, hl₁, -, e', hme, hd⟩ := h (σ.next .comma) (.inl rfl) (allFit_leads hf (.next σ _ ts))
  have hl := (Seam.Leads.next σ .comma ts).trans hl₁
  obtain ⟨σ₂, hl₂, es', hms, hds⟩ := hs σ₁ (sofar' ++ [e']) (allFit_leads hf hl) fun i => by
    have hi := hme.agrees i
    rw [substituteAll_append, values_append, values_append, hm i]
    simp only [substituteAll, Interpretation.values, hi, fill]
  refine ⟨σ₂, hl.trans hl₂, es', hms, ?_⟩
  rw [splice_keep rfl]
  exact .nextArgument hd hds

/-- Every phrase is read with the value in the place of the name. -/
theorem Sound.splices (hx : x.Sound) {φ : Phrase} (h : Derives φ ts us) :
    x.SplicesPhrase φ ts us := by
  have hrelation (t : Token) (ht : t.startsOperand = true) : t.isRelation = false := by
    cases t <;> first | rfl | cases ht
  have hsummand (t : Token) (ht : t.startsOperand = true) : t.isSummandSign = false := by
    cases t <;> first | rfl | cases ht
  induction h with
  | expression ha _ iha ihc =>
    exact splicesOperand_chain (Bracketing.foundIn_of_derives ha) iha ihc .expression
  | lastSide h => exact splicesChain_last fun _ _ => .lastSide (hx.headIs_splice hrelation h)
  | nextSide hb _ ihb ihc =>
    exact splicesChain_next rfl (fun _ => .inl rfl) (Bracketing.foundIn_of_derives hb) ihb ihc
      fun ha hb => ⟨_, ha.compare hb, .nextSide⟩
  | sum ha _ iha ihc => exact splicesOperand_chain (Bracketing.foundIn_of_derives ha) iha ihc .sum
  | lastSummand h => exact splicesChain_last fun _ _ => .lastSummand (hx.headIs_splice hsummand h)
  | @nextSummand _ _ _ f _ _ _ hf hb _ ihb ihc =>
    exact splicesChain_next rfl (fun _ => .inl (by cases f <;> rfl))
      (Bracketing.foundIn_of_derives hb) ihb ihc fun ha hb => ⟨_, ha.binary hb, .nextSummand hf⟩
  | product ha _ iha ihc =>
    exact splicesOperand_product (Bracketing.foundIn_of_derives ha) iha ihc
  | @lastFactor _ ts h =>
    refine splicesChain_last fun _ _ => .lastFactor ?_
    rwa [headIs_splice_of_not_symbol]
    cases ts with
    | nil => rfl
    | cons t ts => cases t <;> first | rfl | cases h
  | nextFactor hf hb _ ihb ihc =>
    exact splicesChain_factor hf (Bracketing.foundIn_of_derives hb) ihb ihc
  | besideName hb _ ihb ihc =>
    exact splicesChain_beside hx (.inl rfl) (Bracketing.foundIn_of_derives hb) ihb ihc
  | besideGroup hb _ ihb ihc =>
    exact splicesChain_beside hx (.inr ⟨_, rfl⟩) (Bracketing.foundIn_of_derives hb) ihb ihc
  | minus _ ih => exact splicesUnary_minus ih
  | plus _ ih => exact splicesUnary_plus ih
  | unsigned _ _ ih => exact splicesUnary_unsigned ih
  | base h _ ih => exact splicesFactor_base hx h ih
  | raised _ _ iha ihb => exact splicesFactor_raised iha ihb
  | plain hp hcall ih =>
    refine splicesFactor_plain hx hp hcall (ih ?_)
    rintro s rfl
    cases hp
    exact hcall rfl
  | call hb hp _ ihp iha =>
    refine splicesFactor_call hb hp (fun hts => ihp ?_) iha
    rintro s rfl
    cases hts
  | integer =>
    exact fun _ => splicesFactor_leaf rfl (by rw [fill, ofInt, substitute]) fun _ => .integer
  | decimal => exact fun _ => splicesFactor_leaf rfl (by rw [fill, substitute]) fun _ => .decimal
  | boolean => exact fun _ => splicesFactor_leaf rfl (by rw [fill, substitute]) fun _ => .boolean
  | name => exact fun h => splicesFactor_name hx (h _ rfl)
  | group _ ih => exact fun _ => splicesFactor_group ih
  | braces _ ih => exact fun _ => splicesFactor_braces ih
  | noArguments => exact splicesArguments_none
  | arguments _ _ _ ihe ihs => exact splicesArguments_some ihe ihs
  | lastArgument h => exact splicesMore_last hx h
  | nextArgument _ _ ihe ihs => exact splicesMore_next ihe ihs

/-- Where the value fits everywhere, the spliced tokens are read as a tree that agrees with the
filled one. -/
theorem Sound.derives_splice (hx : x.Sound) (h : Derives (.expression e) ts [])
    (hf : x.allFit .start ts = true) :
    ∃ e', Agrees e' (x.fill e) ∧ Derives (.expression e') (x.splice .start ts) [] := by
  obtain ⟨σ', -, -, e', hm, hd⟩ := hx.splices h .start (.inl rfl) hf
  exact ⟨e', hm.agrees, hd⟩

end Filling

end Reckoner
