import Reckoner.Proofs.Grammar.Nesting
import Reckoner.Proofs.Grammar.Soundness

/-!
# Every derivation is read

The rules read what is derived, unless they run out of levels: no other error is possible, and
they run out of levels exactly where fewer are left than the derivation goes down. A text whose
tokens make up an expression is therefore read as that expression, or it nests too deeply.
-/

namespace Reckoner.Grammar

/-- The result is the given one, unless the levels do not suffice. -/
def Reaches {α : Type} (r : Except ParseError α) (a : α) : Prop :=
  r = .ok a ∨ r = .error .nestedTooDeeply

/-- What is read on the levels that are left, where it takes `k` of them. -/
def within {α : Type} (k n : Nat) (a : α) : Except ParseError α :=
  if k ≤ n then .ok a else .error .nestedTooDeeply

section

variable {α β : Type} {a : α} {b : β} {k l n : Nat}

@[simp] theorem within_zero : within 0 n a = .ok a := if_pos (Nat.zero_le n)

theorem within_of_le (h : k ≤ n) : within k n a = .ok a := if_pos h

theorem within_of_lt (h : n < k) : within k n a = .error .nestedTooDeeply :=
  if_neg (Nat.not_le_of_lt h)

/-- A level further down one level less is left. -/
theorem within_succ : within (k + 1) (n + 1) a = within k n a := by
  simp only [within, Nat.add_le_add_iff_right]

/-- Two parts take as many levels as the part that takes more. -/
theorem bind_within {r : Except ParseError α} {f : α → Except ParseError β}
    (hr : r = within k n a) (hf : f a = within l n b) : r >>= f = within (max k l) n b := by
  by_cases hk : k ≤ n
  · rw [hr, within_of_le hk]
    refine hf.trans ?_
    by_cases hl : l ≤ n
    · rw [within_of_le hl, within_of_le (Nat.max_le.mpr ⟨hk, hl⟩)]
    · rw [within_of_lt (by omega), within_of_lt (by omega)]
  · rw [hr, within_of_lt (by omega), within_of_lt (by omega)]
    rfl

/-- What is certain in front takes no level. -/
theorem ok_bind_within {r : Except ParseError α} {f : α → Except ParseError β}
    (hr : r = .ok a) (hf : f a = within l n b) : r >>= f = within l n b := by
  rw [hr]
  exact hf

/-- What is certain behind takes no level. -/
theorem within_bind_ok {r : Except ParseError α} {f : α → Except ParseError β}
    (hr : r = within k n a) (hf : f a = .ok b) : r >>= f = within k n b := by
  have h := bind_within hr (hf.trans (within_zero (n := n)).symm)
  rwa [Nat.max_zero] at h

end

/-- Tokens without an error behind them. -/
def Input.of (ts : List Token) : Input := ⟨ts, none⟩

/-- Without an error behind them the tokens can be gone past one by one. -/
theorem Input.advance_of (t : Token) (ts : List Token) :
    (Input.of (t :: ts)).advance = .ok (Input.of ts) := by
  cases ts <;> rfl

theorem Input.isAt_of (t : Token) (ts : List Token) :
    (Input.of ts).isAt t = headIs t.isSign ts := rfl

/-- The expected sign is taken. -/
theorem expect_of {t : Token} (ts : List Token) (h : t.isSign t = true) :
    expect t (Input.of (t :: ts)) = .ok (Input.of ts) := by
  simp only [expect, Input.isAt_of, headIs_cons, h, if_true, Input.advance_of]

/-- A chain reads a piece and goes on. -/
theorem chain_within {α : Type} {step : α → Input → Except ParseError (Option (α × Input))}
    {a b : α} {i j : Input} {x : α × Input} {k l n : Nat}
    (hlt : j.tokens.length < i.tokens.length) (hs : step a i = within k n (some (b, j)))
    (hc : chain step b j = within l n x) : chain step a i = within (max k l) n x := by
  rw [chain.eq_def]
  by_cases hk : k ≤ n
  · have hbind := bind_within (f := fun _ => chain step b j) hs hc
    rw [hs, within_of_le hk] at hbind ⊢
    simp only [if_pos hlt]
    exact hbind
  · rw [hs, within_of_lt (by omega), within_of_lt (by omega)]

/-- A chain stops where its step declines. -/
theorem chain_stop {α : Type} {step : α → Input → Except ParseError (Option (α × Input))}
    {a : α} {i : Input} (hs : step a i = .ok none) : chain step a i = .ok (a, i) := by
  rw [chain.eq_def, hs]

/-- With `n` deeper levels the rule of the phrase reads it, if `k` of them suffice. -/
def Phrase.ReadWithin (k n : Nat) : Phrase → List Token → List Token → Prop
  | .expression e, ts, us => comparison (level n) (.of ts) = within k n (e, .of us)
  | .sides a e, ts, us => chain (moreSides (level n)) a (.of ts) = within k n (e, .of us)
  | .sum e, ts, us => Grammar.sum (level n) (.of ts) = within k n (e, .of us)
  | .summands a e, ts, us => chain (moreSummands (level n)) a (.of ts) = within k n (e, .of us)
  | .product e, ts, us => Grammar.product (level n) (.of ts) = within k n (e, .of us)
  | .factors a e, ts, us => chain (moreFactors (level n)) a (.of ts) = within k n (e, .of us)
  | .unary e, ts, us => Grammar.unary (level n) (.of ts) = within k n (e, .of us)
  | .power e, ts, us => Grammar.power (level n) (.of ts) = within k n (e, .of us)
  | .application e, ts, us => Grammar.application (level n) (.of ts) = within k n (e, .of us)
  | .primary e, ts, us => Grammar.primary (level n) (.of ts) = within k n (e, .of us)
  | .arguments b es, ts, us => Grammar.arguments (level n) b (.of ts) = within k n (es, .of us)
  | .moreArguments a es, ts, us =>
    chain (Grammar.moreArguments (level n)) a (.of ts) = within k n (es, .of us)

/-- What a level reads as an expression, the next one reads in brackets. -/
theorem expression_within {k : Nat} {e : Expr} {ts us : List Token}
    (h : ∀ n, Phrase.ReadWithin k n (.expression e) ts us) (n : Nat) :
    (level n).expression (.of ts) = within (k + 1) n (e, .of us) := by
  cases n with
  | zero => rfl
  | succ n => exact (h n).trans within_succ.symm

/-- What a level reads as an operand, the next one reads behind a sign. -/
theorem operand_within {k : Nat} {e : Expr} {ts us : List Token}
    (h : ∀ n, Phrase.ReadWithin k n (.unary e) ts us) (n : Nat) :
    (level n).operand (.of ts) = within (k + 1) n (e, .of us) := by
  cases n with
  | zero => rfl
  | succ n => exact (h n).trans within_succ.symm

/-! ## Where chains stop -/

/-- Where no relation follows the chain of comparisons stops. -/
theorem moreSides_stop {deeper : Level} {a : Expr} {ts : List Token}
    (h : headIs Token.isRelation ts = false) : moreSides deeper a (.of ts) = .ok none := by
  cases ts with
  | nil => rfl
  | cons t ts =>
    cases t with
    | relation f => cases h
    | _ => rfl

/-- Where no sign of a sum follows the chain of summands stops. -/
theorem moreSummands_stop {deeper : Level} {a : Expr} {ts : List Token}
    (h : headIs Token.isSummandSign ts = false) : moreSummands deeper a (.of ts) = .ok none := by
  cases ts with
  | nil => rfl
  | cons t ts =>
    cases t with
    | operation f => cases f <;> first | rfl | cases h
    | _ => rfl

/-- Where no factor follows the chain of factors stops. -/
theorem moreFactors_stop {deeper : Level} {a : Expr} {ts : List Token}
    (h : headIs Token.startsFactor ts = false) : moreFactors deeper a (.of ts) = .ok none := by
  cases ts with
  | nil => rfl
  | cons t ts =>
    cases t with
    | operation f => cases f <;> first | rfl | cases h
    | name s => cases h
    | opening b => cases b <;> first | rfl | cases h
    | _ => rfl

/-- Where no comma follows the chain of arguments stops. -/
theorem moreArguments_stop {deeper : Level} {es : List Expr} {ts : List Token}
    (h : headIs (Token.isSign .comma) ts = false) :
    moreArguments deeper es (.of ts) = .ok none := by
  simp only [moreArguments, Input.isAt_of, h, Bool.false_eq_true, if_false]
  rfl

/-- Without a sign in front there is a power. -/
theorem unary_unsigned {deeper : Level} {ts : List Token}
    (h : headIs Token.isSummandSign ts = false) :
    unary deeper (.of ts) = power deeper (.of ts) := by
  cases ts with
  | nil => rfl
  | cons t ts =>
    cases t with
    | operation f => cases f <;> first | rfl | cases h
    | _ => rfl

/-- An expression without arguments behind it is left as it is. -/
theorem application_plain {k n : Nat} {deeper : Level} {e : Expr} {ts us : List Token}
    (hp : primary deeper (.of ts) = within k n (e, .of us))
    (h : e.symbolName?.isSome → headIs Token.opensCall us = false) :
    application deeper (.of ts) = within k n (e, .of us) := by
  refine within_bind_ok hp ?_
  dsimp only
  split
  · rename_i s hn
    have hopens := h rfl
    rw [show us = _ from Input.tokens_of_next hn] at hopens
    cases hopens
  · rename_i s hn
    have hopens := h rfl
    rw [show us = _ from Input.tokens_of_next hn] at hopens
    cases hopens
  · rfl

/-- Arguments between brackets. -/
theorem enclosed_within {k n : Nat} {deeper : Level} {b : Bracket} {es : List Expr}
    {ts us : List Token}
    (h : arguments deeper b (.of ts) = within k n (es, .of (.closing b :: us))) :
    enclosed deeper b (.of (.opening b :: ts)) = within k n (es, .of us) := by
  have hclosed : expect (.closing b) (.of (.closing b :: us)) = .ok (.of us) :=
    expect_of us (by cases b <;> rfl)
  refine ok_bind_within (Input.advance_of _ _) (within_bind_ok h ?_)
  simp only [hclosed]
  rfl

/-- Nested phrases are read where the levels suffice, and only there. -/
theorem Nested.read {k : Nat} {φ : Phrase} {ts us : List Token} (h : Nested k φ ts us) (n : Nat) :
    φ.ReadWithin k n ts us := by
  induction h generalizing n with
  | expression _ _ ihs ihc => exact bind_within (ihs n) (ihc n)
  | lastSide hr => exact (chain_stop (moreSides_stop hr)).trans within_zero.symm
  | nextSide hs _ ihs ihc =>
    refine chain_within (Nat.lt_succ_of_lt (hs.derives.length_lt rfl)) ?_ (ihc n)
    exact ok_bind_within (Input.advance_of _ _) (within_bind_ok (ihs n) rfl)
  | sum _ _ ihp ihc => exact bind_within (ihp n) (ihc n)
  | lastSummand hr => exact (chain_stop (moreSummands_stop hr)).trans within_zero.symm
  | @nextSummand k l a b e f ts us vs hf hp _ ihp ihc =>
    refine chain_within (Nat.lt_succ_of_lt (hp.derives.length_lt rfl)) ?_ (ihc n)
    cases f with
    | add => exact ok_bind_within (Input.advance_of _ _) (within_bind_ok (ihp n) rfl)
    | subtract => exact ok_bind_within (Input.advance_of _ _) (within_bind_ok (ihp n) rfl)
    | _ => cases hf
  | product _ _ ihu ihc => exact bind_within (ihu n) (ihc n)
  | lastFactor hr => exact (chain_stop (moreFactors_stop hr)).trans within_zero.symm
  | @nextFactor k l a b e f ts us vs hf hu _ ihu ihc =>
    refine chain_within (Nat.lt_succ_of_lt (hu.derives.length_lt rfl)) ?_ (ihc n)
    cases f with
    | multiply => exact ok_bind_within (Input.advance_of _ _) (within_bind_ok (ihu n) rfl)
    | divide => exact ok_bind_within (Input.advance_of _ _) (within_bind_ok (ihu n) rfl)
    | _ => cases hf
  | besideName hp _ ihp ihc =>
    exact chain_within (hp.derives.length_lt rfl) (within_bind_ok (ihp n) rfl) (ihc n)
  | besideGroup hp _ ihp ihc =>
    exact chain_within (hp.derives.length_lt rfl) (within_bind_ok (ihp n) rfl) (ihc n)
  | minus _ ih =>
    exact ok_bind_within (Input.advance_of _ _) (within_bind_ok (operand_within ih n) rfl)
  | plus _ ih => exact ok_bind_within (Input.advance_of _ _) (operand_within ih n)
  | unsigned hs _ ih =>
    simp only [Phrase.ReadWithin, unary_unsigned hs]
    exact ih n
  | base hr _ ih =>
    refine within_bind_ok (ih n) ?_
    simp only [Input.isAt_of, hr, Bool.false_eq_true, if_false]
    rfl
  | raised _ _ iha ihu =>
    refine bind_within (iha n) ?_
    exact ok_bind_within (Input.advance_of _ _) (within_bind_ok (operand_within ihu n) rfl)
  | plain _ hs ih => exact application_plain (ih n) hs
  | @call k l s es b ts us vs hb _ _ ihp iha =>
    refine bind_within (ihp n) ?_
    cases b with
    | round => exact within_bind_ok (enclosed_within (iha n)) rfl
    | square => exact within_bind_ok (enclosed_within (iha n)) rfl
    | curly => cases hb
  | integer | decimal | boolean | name =>
    exact ok_bind_within (Input.advance_of _ _) within_zero.symm
  | group _ ih =>
    refine ok_bind_within (Input.advance_of _ _) (within_bind_ok (expression_within ih n) ?_)
    have hclosed (us : List Token) :
        expect (.closing .round) (.of (.closing .round :: us)) = .ok (.of us) := expect_of us rfl
    simp only [hclosed]
    rfl
  | braces _ ih => exact within_bind_ok (enclosed_within (ih n)) rfl
  | @noArguments b ts =>
    rw [Phrase.ReadWithin, within_zero]
    cases b <;> rfl
  | arguments hne _ _ ihe ihc =>
    simp only [Phrase.ReadWithin, Grammar.arguments, Input.isAt_of, hne, Bool.false_eq_true,
      if_false]
    exact bind_within (expression_within ihe n) (ihc n)
  | lastArgument hr => exact (chain_stop (moreArguments_stop hr)).trans within_zero.symm
  | nextArgument he _ ihe ihc =>
    refine chain_within (Nat.lt_succ_of_lt (he.derives.length_lt rfl)) ?_ (ihc n)
    exact ok_bind_within (Input.advance_of _ _) (within_bind_ok (expression_within ihe n) rfl)

/-- A text whose tokens make up an expression is read as that exactly where neither its brackets
nor the tree are too deep. -/
theorem parse_of_nested {s : String} {e : Expr} {ts : List Token} {k : Nat}
    (hs : Token.scanAll s.toList = (ts, none)) (h : Nested k (.expression e) ts []) :
    parse s = if k < maxLevels ∧ e.depth ≤ maxHeight then .ok e else .error .nestedTooDeeply := by
  have hi : Input.ofText s = .ok (.of ts) := by
    simp only [Input.ofText, hs]
    cases ts <;> rfl
  have hread := expression_within h.read maxLevels
  rw [parse, hi]
  change (level maxLevels).expression (.of ts) >>= _ = _
  rw [hread]
  by_cases hk : k < maxLevels
  · rw [within_of_le hk]
    by_cases hd : e.depth ≤ maxHeight
    · rw [if_pos (And.intro hk hd)]
      exact if_neg (Nat.not_lt_of_le hd)
    · rw [if_neg fun hb : k < maxLevels ∧ e.depth ≤ maxHeight => hd hb.2]
      exact if_pos (Nat.lt_of_not_le hd)
  · rw [within_of_lt (by omega), if_neg fun hb => hk hb.1]
    rfl

/-- A text that is read has tokens only, and they make up the expression on the levels that there
are. -/
theorem nested_of_parse {s : String} {e : Expr} (h : parse s = .ok e) :
    ∃ ts k, Token.scanAll s.toList = (ts, none) ∧ Nested k (.expression e) ts [] ∧
      k < maxLevels ∧ e.depth ≤ maxHeight := by
  obtain ⟨ts, hts, hd, hdepth⟩ := derives_of_parse h
  obtain ⟨k, hk⟩ := hd.nested
  refine ⟨ts, k, hts, hk, ?_, hdepth⟩
  rw [parse_of_nested hts hk] at h
  split at h
  · rename_i hlimits
    exact hlimits.1
  · cases h

/-- A text whose tokens make up an expression is read as that, or nests too deeply. -/
theorem parse_of_derives {s : String} {e : Expr} {ts : List Token}
    (hs : Token.scanAll s.toList = (ts, none)) (h : Derives (.expression e) ts []) :
    Reaches (parse s) e := by
  obtain ⟨k, hk⟩ := h.nested
  rw [parse_of_nested hs hk]
  split
  · exact .inl rfl
  · exact .inr rfl

/-- A text is read as one tree only. -/
theorem eq_of_derives {s : String} {e e' : Expr} {ts : List Token}
    (hp : parse s = .ok e) (hs : Token.scanAll s.toList = (ts, none))
    (h : Derives (.expression e') ts []) : e' = e := by
  rcases parse_of_derives hs h with hok | herror
  · rw [hp] at hok
    exact (Except.ok.inj hok).symm
  · rw [hp] at herror
    cases herror

end Reckoner.Grammar
