import Reckoner.Proofs.Expr.Renaming
import Reckoner.Proofs.Grammar.Completeness
import Reckoner.Proofs.Grammar.Lexemes

/-!
# Brackets around a name behind a number

A number is multiplied by the name behind it, and as well by the name in brackets: there the
brackets cannot hold arguments. Where nothing calls the name, brackets around it are therefore
added or removed without another tree, and only the number of levels changes, by one. Names may be
exchanged for others at the same time, as long as a function cannot tell them apart.
-/

namespace Reckoner.Grammar

open Reckoner.Expr

/-- Tokens with brackets around some names that others do not have, where the flag tells that a
number stands before them. With no level to spare brackets are removed only. -/
inductive Rebracketed (f : String → String) (spare : Nat) : Bool → List Token → List Token → Prop
  | nil {b} : Rebracketed f spare b [] []
  | mark {b t ts ts'} : t.isSymbol = false → Rebracketed f spare t.isNumber ts ts' →
    Rebracketed f spare b (t :: ts) (t :: ts')
  | name {b x y ts ts'} : f x = f y → Rebracketed f spare false ts ts' →
    Rebracketed f spare b (.name x :: ts) (.name y :: ts')
  | added {x y ts ts'} : 0 < spare → f x = f y → headIs Token.opensCall ts = false →
    Rebracketed f spare false ts ts' →
      Rebracketed f spare true (.name x :: ts)
        (.opening .round :: .name y :: .closing .round :: ts')
  | removed {x y ts ts'} : f x = f y → headIs Token.opensCall ts = false →
    Rebracketed f spare false ts ts' →
      Rebracketed f spare true (.opening .round :: .name x :: .closing .round :: ts)
        (.name y :: ts')

namespace Rebracketed

variable {f : String → String} {spare : Nat} {b : Bool} {t : Token} {ts ts' us us' : List Token}

/-- Names and round brackets aside, the first token is the same. -/
theorem headIs_eq (h : Rebracketed f spare b ts ts') {p : Token → Bool}
    (hname : ∀ x, p (.name x) = false) (hopen : p (.opening .round) = false) :
    headIs p ts' = headIs p ts := by
  cases h <;> simp only [headIs_nil, headIs_cons, hname, hopen]

/-- Nothing is bracketed at first, so the same kind of token comes first. -/
theorem headIs_opensCall (h : Rebracketed f spare false ts ts') :
    headIs Token.opensCall ts' = headIs Token.opensCall ts := by
  cases h <;> rfl

/-- A factor starts with a name or with a bracket. -/
theorem headIs_startsFactor (h : Rebracketed f spare b ts ts') :
    headIs Token.startsFactor ts' = headIs Token.startsFactor ts := by
  cases h <;> rfl

/-- No other token has another one in its place. -/
theorem cons_inv (h : Rebracketed f spare b (t :: ts) us) (hname : t.isSymbol = false)
    (hopen : t.opensCall = false) :
    ∃ ts', us = t :: ts' ∧ Rebracketed f spare t.isNumber ts ts' := by
  cases h with
  | mark _ h => exact ⟨_, rfl, h⟩
  | name => cases hname
  | added => cases hname
  | removed => cases hopen

/-- With a level to spare brackets may be added as well. -/
theorem symm (h : Rebracketed f spare b ts ts') : Rebracketed f 1 b ts' ts := by
  induction h with
  | nil => exact .nil
  | mark ht _ ih => exact .mark ht ih
  | name hxy _ ih => exact .name hxy.symm ih
  | added _ hxy hcall h ih => exact .removed hxy.symm (h.headIs_opensCall.trans hcall) ih
  | removed hxy hcall h ih =>
    exact .added Nat.one_pos hxy.symm (h.headIs_opensCall.trans hcall) ih

/-- A closing bracket may follow on both sides. -/
theorem append_closing (h : Rebracketed f spare b ts ts') (c : Bracket) :
    Rebracketed f spare b (ts ++ [.closing c]) (ts' ++ [.closing c]) := by
  have hcall {ts : List Token} (hts : headIs Token.opensCall ts = false) :
      headIs Token.opensCall (ts ++ [.closing c]) = false := by
    cases ts <;> first | rfl | exact hts
  induction h with
  | nil => exact .mark rfl .nil
  | mark ht _ ih => exact .mark ht ih
  | name hxy _ ih => exact .name hxy ih
  | added hspare hxy hts _ ih => exact .added hspare hxy (hcall hts) ih
  | removed hxy hts _ ih => exact .removed hxy (hcall hts) ih

end Rebracketed

/-! ## Phrases -/

/-- A tree is read off tokens in one way only. -/
theorem Derives.unique {e e' : Expr} {ts us us' : List Token} (h : Derives (.expression e) ts us)
    (h' : Derives (.expression e') ts us') : e = e' ∧ us = us' := by
  obtain ⟨k, hk⟩ := h.nested
  obtain ⟨l, hl⟩ := h'.nested
  have hread := hk.read (max k l)
  have hread' := hl.read (max k l)
  rw [Phrase.ReadWithin, within_of_le (Nat.le_max_left k l)] at hread
  rw [Phrase.ReadWithin, within_of_le (Nat.le_max_right k l), hread] at hread'
  injection hread' with hpair
  injection hpair with he hus
  injection hus with hus
  exact ⟨he, hus⟩

/-- An expression takes its number of levels, and no other. -/
theorem Nested.levels_unique {e : Expr} {k l : Nat} {ts us : List Token}
    (h : Nested k (.expression e) ts us) (h' : Nested l (.expression e) ts us) : k = l := by
  have hwithin (n : Nat) : within k n (e, Input.of us) = within l n (e, Input.of us) :=
    (h.read n).symm.trans (h'.read n)
  refine Nat.le_antisymm (Nat.le_of_not_lt fun hlt => ?_) (Nat.le_of_not_lt fun hlt => ?_)
  · have heq := hwithin l
    rw [within_of_lt hlt, within_of_le (Nat.le_refl l)] at heq
    cases heq
  · have heq := hwithin k
    rw [within_of_lt hlt, within_of_le (Nat.le_refl k)] at heq
    cases heq

/-- A name in front of a closing bracket is read as its symbol. -/
theorem nested_name (x : String) (b : Bracket) (us : List Token) :
    Nested 0 (.expression (.symbol x)) (.name x :: .closing b :: us) (.closing b :: us) := by
  have hprimary : Nested 0 (.application (.symbol x)) (.name x :: .closing b :: us)
      (.closing b :: us) := .plain .name fun _ => rfl
  have hunary := Nested.unsigned rfl (.base rfl hprimary)
  exact .expression (.sum (.product hunary (.lastFactor rfl)) (.lastSummand rfl)) (.lastSide rfl)

variable (f : String → String) (spare : Nat)

/-- The phrase is read off rebracketed tokens as well, with other names. -/
def ReadAnew {α : Type} (k : Nat) (ts us : List Token) (same : α → Bool → Prop)
    (phrase : α → Phrase) : Prop :=
  ∀ b ts', Rebracketed f spare b ts ts' → ∃ k' a b' us', k' ≤ k + spare ∧ same a b' ∧
    Rebracketed f spare b' us us' ∧ Nested k' (phrase a) ts' us'

/-- The tree is the same but for its names. -/
def Alike (e e' : Expr) (_ : Bool) : Prop := rename f e' = rename f e

/-- The trees are the same but for their names. -/
def AllAlike (es es' : List Expr) (_ : Bool) : Prop := renameAll f es' = renameAll f es

/-- The tree is the same but for its names, and behind a symbol no number stands. -/
def PrimaryAlike (e e' : Expr) (b : Bool) : Prop :=
  rename f e' = rename f e ∧ (e.symbolName?.isSome → b = false)

/-- What is read off rebracketed tokens; a chain continues what was read with other names. -/
def Phrase.Rereads (k : Nat) : Phrase → List Token → List Token → Prop
  | .expression e, ts, us => ReadAnew f spare k ts us (Alike f e) .expression
  | .sides a e, ts, us => ∀ a', rename f a' = rename f a →
    ReadAnew f spare k ts us (Alike f e) (.sides a')
  | .sum e, ts, us => ReadAnew f spare k ts us (Alike f e) .sum
  | .summands a e, ts, us => ∀ a', rename f a' = rename f a →
    ReadAnew f spare k ts us (Alike f e) (.summands a')
  | .product e, ts, us => ReadAnew f spare k ts us (Alike f e) .product
  | .factors a e, ts, us => ∀ a', rename f a' = rename f a →
    ReadAnew f spare k ts us (Alike f e) (.factors a')
  | .unary e, ts, us => ReadAnew f spare k ts us (Alike f e) .unary
  | .power e, ts, us => ReadAnew f spare k ts us (Alike f e) .power
  | .application e, ts, us => ReadAnew f spare k ts us (Alike f e) .application
  | .primary e, ts, us => ReadAnew f spare k ts us (PrimaryAlike f e) .primary
  | .arguments b es, ts, us => ReadAnew f spare k ts us (AllAlike f es) (.arguments b)
  | .moreArguments as es, ts, us => ∀ as', renameAll f as' = renameAll f as →
    ReadAnew f spare k ts us (AllAlike f es) (.moreArguments as')

variable {f spare} {k l : Nat} {t : Token} {ts us vs : List Token}

section

variable {α β γ : Type} {same : α → Bool → Prop} {same' : γ → Bool → Prop} {phrase : α → Phrase}
  {chain : α → γ → Phrase} {whole : γ → Phrase}

/-- One phrase behind another. -/
theorem ReadAnew.bind (h : ReadAnew f spare k ts us same phrase)
    (hc : ∀ a b, same a b → ReadAnew f spare l us vs same' (chain a))
    (hd : ∀ {k l a c ts us vs}, Nested k (phrase a) ts us → Nested l (chain a c) us vs →
      Nested (max k l) (whole c) ts vs) : ReadAnew f spare (max k l) ts vs same' whole := by
  intro b ts' hr
  obtain ⟨k', a, b₁, us', hk, ha, hus, hn⟩ := h b ts' hr
  obtain ⟨l', c, b₂, vs', hl, hs, hvs, hn'⟩ := hc a b₁ ha b₁ us' hus
  exact ⟨max k' l', c, b₂, vs', by omega, hs, hvs, hd hn hn'⟩

/-- The same behind a sign, which stands on both sides. -/
theorem ReadAnew.bind_behind (ht : t.isSymbol = false) (ht' : t.opensCall = false)
    (h : ReadAnew f spare k ts us same phrase)
    (hc : ∀ a b, same a b → ReadAnew f spare l us vs same' (chain a))
    (hd : ∀ {k l a c ts us vs}, Nested k (phrase a) ts us → Nested l (chain a c) us vs →
      Nested (max k l) (whole c) (t :: ts) vs) :
    ReadAnew f spare (max k l) (t :: ts) vs same' whole := by
  intro b ts' hr
  obtain ⟨ts', rfl, hts⟩ := hr.cons_inv ht ht'
  obtain ⟨k', a, b₁, us', hk, ha, hus, hn⟩ := h _ ts' hts
  obtain ⟨l', c, b₂, vs', hl, hs, hvs, hn'⟩ := hc a b₁ ha b₁ us' hus
  exact ⟨max k' l', c, b₂, vs', by omega, hs, hvs, hd hn hn'⟩

/-- One phrase that makes up another. -/
theorem ReadAnew.map {whole : γ → Phrase} {g : α → γ} (h : ReadAnew f spare k ts us same phrase)
    (hs : ∀ a b, same a b → same' (g a) b)
    (hd : ∀ {b b' k a ts' us'}, Rebracketed f spare b ts ts' → Rebracketed f spare b' us us' →
      Nested k (phrase a) ts' us' → Nested k (whole (g a)) ts' us') :
    ReadAnew f spare k ts us same' whole := by
  intro b ts' hr
  obtain ⟨k', a, b', us', hk, ha, hus, hn⟩ := h b ts' hr
  exact ⟨k', g a, b', us', hk, hs a b' ha, hus, hd hr hus hn⟩

/-- A chain may stop where it stopped before. -/
theorem ReadAnew.stop {phrase : α → Phrase} {a : α} (ha : ∀ b, same a b)
    (hd : ∀ {b ts'}, Rebracketed f spare b ts ts' → Nested 0 (phrase a) ts' ts') :
    ReadAnew f spare 0 ts ts same phrase := fun b ts' hr =>
  ⟨0, a, b, ts', Nat.zero_le _, ha b, hr, hd hr⟩

end

/-- A factor directly behind another, in brackets or not. -/
theorem readAnew_beside {a' b e : Expr} (ht : (∃ x, t = .name x) ∨ t = .opening .round)
    (h : ReadAnew f spare k (t :: ts) us (Alike f b) .power)
    (hc : ∀ b' x, Alike f b b' x →
      ReadAnew f spare l us vs (Alike f e) (.factors (.binary .multiply a' b'))) :
    ReadAnew f spare (max k l) (t :: ts) vs (Alike f e) (.factors a') := by
  intro x ts' hr
  obtain ⟨k', b', x₁, us', hk, hb, hus, hn⟩ := h x ts' hr
  obtain ⟨l', e', x₂, vs', hl, he, hvs, hn'⟩ := hc b' x₁ hb x₁ us' hus
  refine ⟨max k' l', e', x₂, vs', by omega, he, hvs, ?_⟩
  cases hr with
  | mark hs _ =>
    obtain ⟨y, rfl⟩ | rfl := ht
    · cases hs
    · exact .besideGroup hn hn'
  | name => exact .besideName hn hn'
  | added => exact .besideGroup hn hn'
  | removed => exact .besideName hn hn'

/-- An operand behind a sign, which takes a level more. -/
theorem readAnew_signed {e : Expr} {g : Expr → Expr} (ht : t.isSymbol = false)
    (ht' : t.opensCall = false) (h : ReadAnew f spare k ts us (Alike f e) .unary)
    (hg : ∀ e', rename f e' = rename f e → rename f (g e') = rename f (g e))
    (hd : ∀ {k e' ts us}, Nested k (.unary e') ts us →
      Nested (k + 1) (.unary (g e')) (t :: ts) us) :
    ReadAnew f spare (k + 1) (t :: ts) us (Alike f (g e)) .unary := by
  intro b ts' hr
  obtain ⟨ts', rfl, hts⟩ := hr.cons_inv ht ht'
  obtain ⟨k', e', b', us', hk, he, hus, hn⟩ := h _ ts' hts
  exact ⟨k' + 1, g e', b', us', by omega, hg e' he, hus, hd hn⟩

/-- A base and its exponent. -/
theorem readAnew_raised {a e : Expr}
    (ha : ReadAnew f spare k ts (.operation .power :: us) (Alike f a) .application)
    (he : ReadAnew f spare l us vs (Alike f e) .unary) :
    ReadAnew f spare (max k (l + 1)) ts vs (Alike f (.binary .power a e)) .power := by
  intro b ts' hr
  obtain ⟨k', a', b₁, us₁, hk, ha, hus, hn⟩ := ha b ts' hr
  obtain ⟨us', rfl, hus'⟩ := hus.cons_inv rfl rfl
  obtain ⟨l', e', b', vs', hl, he, hvs, hn'⟩ := he _ us' hus'
  exact ⟨max k' (l' + 1), .binary .power a' e', b', vs', by omega, rename_binary .power ha he,
    hvs, .raised hn hn'⟩

/-- A primary that is not called. -/
theorem readAnew_plain {e : Expr} (h : ReadAnew f spare k ts us (PrimaryAlike f e) .primary)
    (hs : e.symbolName?.isSome → headIs Token.opensCall us = false) :
    ReadAnew f spare k ts us (Alike f e) .application := by
  intro b ts' hr
  obtain ⟨k', e', b', us', hk, ⟨he, hb⟩, hus, hn⟩ := h b ts' hr
  refine ⟨k', e', b', us', hk, he, hus, .plain hn fun hsymbol => ?_⟩
  have hsymbol := (isSome_symbolName?_of_rename he).symm.trans hsymbol
  rw [hb hsymbol] at hus
  exact hus.headIs_opensCall.trans (hs hsymbol)

/-- A name that is called, and its arguments. -/
theorem readAnew_call {s : String} {es : List Expr} {bracket : Bracket}
    (hb : (Token.opening bracket).opensCall)
    (hp : ReadAnew f spare k ts (.opening bracket :: us) (PrimaryAlike f (.symbol s)) .primary)
    (ha : ReadAnew f spare l us (.closing bracket :: vs) (AllAlike f es) (.arguments bracket)) :
    ReadAnew f spare (max k l) ts vs (Alike f (.call s es)) .application := by
  intro b ts' hr
  obtain ⟨k', e', b₁, us₁, hk, ⟨he, hb₁⟩, hus, hn⟩ := hp b ts' hr
  obtain ⟨y, rfl, hy⟩ := exists_symbol_of_rename he
  rw [hb₁ rfl] at hus
  cases hus with
  | mark _ hus =>
    obtain ⟨l', es', b₂, us₂, hl, hes, hus₂, hn'⟩ := ha _ _ hus
    obtain ⟨vs', rfl, hvs⟩ := hus₂.cons_inv rfl rfl
    refine ⟨max k' l', .call y es', _, vs', by omega, ?_, hvs, .call hb hn hn'⟩
    rw [Alike, rename, rename, hy, hes]

/-- A number or a truth value. -/
theorem readAnew_leaf {e : Expr} (ht : t.isSymbol = false) (ht' : t.opensCall = false)
    (he : e.symbolName? = none) (hd : ∀ ts, Nested 0 (.primary e) (t :: ts) ts) :
    ReadAnew f spare 0 (t :: ts) ts (PrimaryAlike f e) .primary := by
  intro b ts' hr
  obtain ⟨us', rfl, hus⟩ := hr.cons_inv ht ht'
  refine ⟨0, e, _, us', Nat.zero_le _, ⟨rfl, fun h => ?_⟩, hus, hd us'⟩
  rw [he] at h
  cases h

/-- A name, around which brackets may be added. -/
theorem readAnew_name {x : String} :
    ReadAnew f spare 0 (.name x :: ts) ts (PrimaryAlike f (.symbol x)) .primary := by
  intro b ts' hr
  cases hr with
  | mark hs _ => cases hs
  | name hxy hus =>
    exact ⟨0, _, false, _, Nat.zero_le _, ⟨rename_symbol hxy, fun _ => rfl⟩, hus, .name⟩
  | added hspare hxy _ hus =>
    exact ⟨1, _, false, _, by omega, ⟨rename_symbol hxy, fun _ => rfl⟩, hus,
      .group (nested_name _ _ _)⟩

/-- Round brackets, which may be removed around a name. -/
theorem readAnew_group {e : Expr} (he : Nested k (.expression e) ts (.closing .round :: us))
    (h : ReadAnew f spare k ts (.closing .round :: us) (Alike f e) .expression) :
    ReadAnew f spare (k + 1) (.opening .round :: ts) us (PrimaryAlike f e) .primary := by
  intro b ts' hr
  cases hr with
  | mark _ hts =>
    obtain ⟨k', e', b₁, us₁, hk, he', hus, hn⟩ := h _ _ hts
    obtain ⟨us', rfl, hus'⟩ := hus.cons_inv rfl rfl
    exact ⟨k' + 1, e', false, us', by omega, ⟨he', fun _ => rfl⟩, hus', .group hn⟩
  | removed hxy _ hus =>
    obtain ⟨rfl, hrest⟩ := he.derives.unique (nested_name _ _ _).derives
    obtain ⟨-, rfl⟩ := List.cons.inj hrest
    exact ⟨0, _, false, _, Nat.zero_le _, ⟨rename_symbol hxy, fun _ => rfl⟩, hus, .name⟩

/-- The items between curly brackets. -/
theorem readAnew_braces {es : List Expr}
    (h : ReadAnew f spare k ts (.closing .curly :: us) (AllAlike f es) (.arguments .curly)) :
    ReadAnew f spare k (.opening .curly :: ts) us (PrimaryAlike f (.list es)) .primary := by
  intro b ts' hr
  cases hr with
  | mark _ hts =>
    obtain ⟨k', es', b₁, us₁, hk, hes, hus, hn⟩ := h _ _ hts
    obtain ⟨us', rfl, hus'⟩ := hus.cons_inv rfl rfl
    refine ⟨k', .list es', false, us', hk, ⟨congrArg Expr.list hes, fun _ => rfl⟩, hus', ?_⟩
    exact .braces hn

/-- The first argument and those behind it. -/
theorem readAnew_arguments {e : Expr} {es : List Expr} {bracket : Bracket}
    (hs : headIs (Token.isSign (.closing bracket)) ts = false)
    (he : ReadAnew f spare k ts us (Alike f e) .expression)
    (hes : ∀ as', renameAll f as' = renameAll f [e] →
      ReadAnew f spare l us vs (AllAlike f es) (.moreArguments as')) :
    ReadAnew f spare (max (k + 1) l) ts vs (AllAlike f es) (.arguments bracket) := by
  intro b ts' hr
  obtain ⟨k', e', b₁, us', hk, he, hus, hn⟩ := he b ts' hr
  obtain ⟨l', es', b₂, vs', hl, hes, hvs, hn'⟩ :=
    hes [e'] (congrArg (fun a => [a]) he) b₁ us' hus
  exact ⟨max (k' + 1) l', es', b₂, vs', by omega, hes, hvs,
    .arguments ((hr.headIs_eq (fun _ => rfl) rfl).trans hs) hn hn'⟩

/-- A further argument behind its comma. -/
theorem readAnew_nextArgument {e : Expr} {as as' es : List Expr}
    (ha : renameAll f as' = renameAll f as)
    (he : ReadAnew f spare k ts us (Alike f e) .expression)
    (hes : ∀ as', renameAll f as' = renameAll f (as ++ [e]) →
      ReadAnew f spare l us vs (AllAlike f es) (.moreArguments as')) :
    ReadAnew f spare (max (k + 1) l) (.comma :: ts) vs (AllAlike f es) (.moreArguments as') := by
  intro b ts' hr
  obtain ⟨ts', rfl, hts⟩ := hr.cons_inv rfl rfl
  obtain ⟨k', e', b₁, us', hk, he, hus, hn⟩ := he _ ts' hts
  obtain ⟨l', es', b₂, vs', hl, hes, hvs, hn'⟩ := hes (as' ++ [e'])
    (renameAll_concat ha he) b₁ us' hus
  exact ⟨max (k' + 1) l', es', b₂, vs', by omega, hes, hvs, .nextArgument hn hn'⟩

/-- Every phrase is read off rebracketed tokens. -/
theorem Nested.rereads {φ : Phrase} (h : Nested k φ ts us) : φ.Rereads f spare k ts us := by
  induction h with
  | expression _ _ iha ihc => exact iha.bind (fun a _ ha => ihc a ha) .expression
  | sum _ _ iha ihc => exact iha.bind (fun a _ ha => ihc a ha) .sum
  | product _ _ iha ihc => exact iha.bind (fun a _ ha => ihc a ha) .product
  | lastSide hr =>
    exact fun a' ha => ReadAnew.stop (fun _ => ha) fun h =>
      .lastSide ((h.headIs_eq (fun _ => rfl) rfl).trans hr)
  | lastSummand hr =>
    exact fun a' ha => ReadAnew.stop (fun _ => ha) fun h =>
      .lastSummand ((h.headIs_eq (fun _ => rfl) rfl).trans hr)
  | lastFactor hr =>
    exact fun a' ha => ReadAnew.stop (fun _ => ha) fun h =>
      .lastFactor (h.headIs_startsFactor.trans hr)
  | nextSide _ _ ihb ihc =>
    exact fun a' ha => ihb.bind_behind rfl rfl
      (fun b _ hb => ihc (.compare _ a' b) (rename_compare _ ha hb)) .nextSide
  | nextSummand hf _ _ ihb ihc =>
    exact fun a' ha => ihb.bind_behind rfl rfl
      (fun b _ hb => ihc (.binary _ a' b) (rename_binary _ ha hb)) (.nextSummand hf)
  | nextFactor hf _ _ ihb ihc =>
    exact fun a' ha => ihb.bind_behind rfl rfl
      (fun b _ hb => ihc (.binary _ a' b) (rename_binary _ ha hb)) (.nextFactor hf)
  | besideName _ _ ihb ihc =>
    exact fun a' ha => readAnew_beside (.inl ⟨_, rfl⟩) ihb fun b _ hb =>
      ihc (.binary .multiply a' b) (rename_binary .multiply ha hb)
  | besideGroup _ _ ihb ihc =>
    exact fun a' ha => readAnew_beside (.inr rfl) ihb fun b _ hb =>
      ihc (.binary .multiply a' b) (rename_binary .multiply ha hb)
  | minus _ ih => exact readAnew_signed rfl rfl ih (fun _ he => congrArg Expr.neg he) .minus
  | plus _ ih => exact readAnew_signed rfl rfl ih (fun _ he => he) .plus
  | unsigned hs _ ih =>
    exact ih.map (fun _ _ ha => ha) fun hr _ =>
      .unsigned ((hr.headIs_eq (fun _ => rfl) rfl).trans hs)
  | base hs _ ih =>
    exact ih.map (fun _ _ ha => ha) fun _ hr =>
      .base ((hr.headIs_eq (fun _ => rfl) rfl).trans hs)
  | raised _ _ iha ihb => exact readAnew_raised iha ihb
  | plain _ hs ih => exact readAnew_plain ih hs
  | call hb _ _ ihp iha => exact readAnew_call hb ihp iha
  | integer => exact readAnew_leaf rfl rfl rfl fun _ => .integer
  | decimal => exact readAnew_leaf rfl rfl rfl fun _ => .decimal
  | boolean => exact readAnew_leaf rfl rfl rfl fun _ => .boolean
  | name => exact readAnew_name
  | group h ih => exact readAnew_group h ih
  | braces _ ih => exact readAnew_braces ih
  | noArguments =>
    intro b ts' hr
    obtain ⟨ts', rfl, hts⟩ := hr.cons_inv rfl rfl
    exact ⟨0, [], b, _, Nat.zero_le _, rfl, hr, .noArguments⟩
  | arguments hs _ _ ihe ihs => exact readAnew_arguments hs ihe ihs
  | lastArgument hr =>
    exact fun as' ha => ReadAnew.stop (fun _ => ha) fun h =>
      .lastArgument ((h.headIs_eq (fun _ => rfl) rfl).trans hr)
  | nextArgument _ _ ihe ihs => exact fun as' ha => readAnew_nextArgument ha ihe ihs

/-- An expression is read off rebracketed tokens as the same tree but for its names, on as many
levels unless brackets were added. -/
theorem Nested.of_rebracketed {e : Expr} {ts' : List Token} (h : Nested k (.expression e) ts [])
    (hr : Rebracketed f spare false ts ts') :
    ∃ k' e', k' ≤ k + spare ∧ rename f e' = rename f e ∧ Nested k' (.expression e') ts' [] := by
  obtain ⟨k', e', b, us', hk, he, hus, hn⟩ := h.rereads false ts' hr
  cases hus
  exact ⟨k', e', hk, he, hn⟩

end Reckoner.Grammar
