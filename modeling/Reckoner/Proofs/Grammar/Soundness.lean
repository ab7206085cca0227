import Reckoner.Proofs.Grammar.Derivation

/-!
# Every reading is a derivation

Whatever a rule reads, at any level, is derived. The rules of one level are sound when
those of the next deeper level are; a chain is sound when its step is. A text that is
read as a whole has no error behind its tokens.
-/

namespace Reckoner.Grammar

/-- A computation in two parts gives a result only if both parts do. -/
theorem bind_ok {ε α β : Type} {x : Except ε α} {f : α → Except ε β} {b : β}
    (h : x >>= f = .ok b) : ∃ a, x = .ok a ∧ f a = .ok b := by
  cases x with
  | error e => cases h
  | ok a => exact ⟨a, rfl, h⟩

namespace Input

/-- An error behind the tokens is not raised yet. -/
def Ready (i : Input) : Prop := i.tokens = [] → i.fault = none

/-- The phrase leads from one input to another behind which the same error stands. -/
structure Leads (φ : Phrase) (i j : Input) : Prop where
  /-- The tokens between the two inputs make up the phrase. -/
  derives : Derives φ i.tokens j.tokens
  /-- What stands behind the tokens stays. -/
  fault : j.fault = i.fault
  /-- No error was passed over. -/
  ready : j.Ready

/-- An error is raised only where no tokens stand in front of it. -/
theorem before_ok {ts : List Token} {f : Option ParseError} {j : Input}
    (h : before ts f = .ok j) : j.tokens = ts ∧ j.fault = f ∧ j.Ready := by
  unfold before at h
  split at h
  · cases h
  · rename_i hne
    cases h
    refine ⟨rfl, rfl, fun hts => ?_⟩
    cases f with
    | none => rfl
    | some e => exact absurd rfl (hne e hts)

/-- Going on leaves the other tokens and the error behind them. -/
theorem advance_ok {i j : Input} (h : i.advance = .ok j) :
    j.tokens = i.tokens.tail ∧ j.fault = i.fault ∧ j.Ready := before_ok h

/-- The next token is the first one. -/
theorem tokens_of_next {i : Input} {t : Token} (h : i.next = some t) :
    i.tokens = t :: i.tokens.tail := by
  obtain ⟨ts, hts⟩ := List.head?_eq_some_iff.mp h
  rw [hts, List.tail_cons]

/-- Going past a token that is known. -/
theorem advance_past {i j : Input} {t : Token} (hn : i.next = some t) (h : i.advance = .ok j) :
    i.tokens = t :: j.tokens ∧ j.fault = i.fault ∧ j.Ready := by
  obtain ⟨ht, hf, hr⟩ := advance_ok h
  exact ⟨ht ▸ tokens_of_next hn, hf, hr⟩

theorem isAt_eq_headIs (i : Input) (t : Token) : i.isAt t = headIs t.isSign i.tokens := rfl

/-- Signs of the same kind are equal. -/
theorem eq_of_isSign {t u : Token} (h : t.isSign u = true) : u = t := by
  cases t <;> cases u <;> simp_all [Token.isSign]

/-- Where the input is at a sign, it is the next token. -/
theorem next_of_isAt {i : Input} {t : Token} (h : i.isAt t = true) : i.next = some t := by
  obtain ⟨u, hu, hs⟩ := (Option.any_eq_true _ _).mp h
  exact eq_of_isSign hs ▸ hu

/-- A token that is a phrase on its own. -/
theorem leads_past {φ : Phrase} {i j : Input} {t : Token} (hn : i.next = some t)
    (h : i.advance = .ok j) (hd : ∀ ts, Derives φ (t :: ts) ts) : i.Leads φ j := by
  obtain ⟨ht, hf, hr⟩ := advance_past hn h
  exact ⟨ht ▸ hd _, hf, hr⟩

/-- What holds of no token that comes next does not hold of the first token. -/
theorem headIs_eq_false {i : Input} {p : Token → Bool}
    (h : ∀ t, i.next = some t → p t = false) : headIs p i.tokens = false := by
  cases hn : i.tokens with
  | nil => rfl
  | cons t ts =>
    rw [headIs_cons]
    exact h t (by rw [next, hn, List.head?_cons])

/-- Going past the closing bracket that has to come next. -/
theorem expect_closing_ok {i j : Input} {b : Bracket} (h : expect (.closing b) i = .ok j) :
    i.tokens = .closing b :: j.tokens ∧ j.fault = i.fault ∧ j.Ready := by
  unfold expect at h
  split at h
  · rename_i hat
    exact advance_past (next_of_isAt hat) h
  · cases h

end Input

/-- Whatever the rule reads is a phrase. -/
def Sound {α : Type} (r : Rule α) (P : α → Phrase) : Prop :=
  ∀ ⦃i j a⦄, i.Ready → r i = .ok (a, j) → i.Leads (P a) j

/-- A step of a chain declines where the chain may stop, and otherwise reads a piece that
any rest of the chain may follow. -/
structure SoundStep {α : Type} (step : α → Input → Except ParseError (Option (α × Input)))
    (P : α → α → Phrase) : Prop where
  /-- Where the step declines the chain may stop. -/
  stop : ∀ ⦃a i⦄, step a i = .ok none → Derives (P a a) i.tokens i.tokens
  /-- A piece is followed by a rest. -/
  more : ∀ ⦃a b i j⦄, i.Ready → step a i = .ok (some (b, j)) →
    j.tokens.length < i.tokens.length ∧ j.fault = i.fault ∧ j.Ready ∧
      ∀ c us, Derives (P b c) j.tokens us → Derives (P a c) i.tokens us

/-- A chain is sound when its step is. -/
theorem SoundStep.chain {α : Type} {step : α → Input → Except ParseError (Option (α × Input))}
    {P : α → α → Phrase} (h : SoundStep step P) {a c : α} {i j : Input} (hi : i.Ready)
    (hc : chain step a i = .ok (c, j)) : i.Leads (P a c) j := by
  fun_induction Grammar.chain step a i with
  | case1 a i e hs => cases hc
  | case2 a i hs =>
    cases hc
    exact ⟨h.stop hs, rfl, hi⟩
  | case3 a i b k hs hlt ih =>
    obtain ⟨-, hf, hk, hrest⟩ := h.more hi hs
    have hl := ih hk hc
    exact ⟨hrest c _ hl.derives, hl.fault.trans hf, hl.ready⟩
  | case4 a i b k hs hlt => exact absurd (h.more hi hs).1 hlt

/-- A rule that reads a part and goes on with a chain. -/
theorem Sound.chained {α : Type} {rule : Rule α}
    {step : α → Input → Except ParseError (Option (α × Input))} {part whole : α → Phrase}
    {P : α → α → Phrase} (hrule : Sound rule part) (hstep : SoundStep step P)
    (hd : ∀ {a c ts us vs}, Derives (part a) ts us → Derives (P a c) us vs →
      Derives (whole c) ts vs) :
    Sound (fun i => do
      let (a, i) ← rule i
      chain step a i) whole := by
  intro i j c hi h
  obtain ⟨⟨a, k⟩, hk, h⟩ := bind_ok h
  have ha := hrule hi hk
  have hc := hstep.chain ha.ready h
  exact ⟨hd ha.derives hc.derives, hc.fault.trans ha.fault, hc.ready⟩

/-- A piece behind a sign, which any rest of the chain may follow. -/
theorem Sound.behind {α β : Type} {rule : Rule β} {part : β → Phrase} {P : α → α → Phrase}
    {a b : α} {e : β} {t : Token} {i k l : Input} (hrule : Sound rule part)
    (hn : i.next = some t) (hk : i.advance = .ok k) (hl : rule k = .ok (e, l))
    (hd : ∀ {c ts us vs}, Derives (part e) ts us → Derives (P b c) us vs →
      Derives (P a c) (t :: ts) vs) :
    l.tokens.length < i.tokens.length ∧ l.fault = i.fault ∧ l.Ready ∧
      ∀ c us, Derives (P b c) l.tokens us → Derives (P a c) i.tokens us := by
  obtain ⟨ht, hf, hr⟩ := Input.advance_past hn hk
  have he := hrule hr hl
  have hle := he.derives.length_le.1
  refine ⟨by rw [ht, List.length_cons]; omega, he.fault.trans hf, he.ready, fun c us hc => ?_⟩
  rw [ht]
  exact hd he.derives hc

/-! ## One level -/

section

variable {deeper : Level} (he : Sound deeper.expression .expression)
  (ho : Sound deeper.operand .unary)

include he in
/-- A further argument is read soundly. -/
theorem soundStep_moreArguments : SoundStep (moreArguments deeper) .moreArguments where
  stop a i h := by
    unfold moreArguments at h
    split at h
    · obtain ⟨_, _, h⟩ := bind_ok h
      obtain ⟨_, _, h⟩ := bind_ok h
      cases h
    · rename_i hat
      exact .lastArgument (by simpa only [Input.isAt_eq_headIs, Bool.not_eq_true] using hat)
  more a b i j hi h := by
    unfold moreArguments at h
    split at h
    · rename_i hat
      obtain ⟨k, hk, h⟩ := bind_ok h
      obtain ⟨⟨e, l⟩, hl, h⟩ := bind_ok h
      cases h
      exact he.behind (Input.next_of_isAt hat) hk hl .nextArgument
    · cases h

include he in
/-- Arguments are read soundly. -/
theorem sound_arguments (b : Bracket) : Sound (arguments deeper b) (.arguments b) := by
  intro i j es hi h
  unfold arguments at h
  split at h
  · rename_i hat
    cases h
    refine ⟨?_, rfl, hi⟩
    rw [Input.tokens_of_next (Input.next_of_isAt hat)]
    exact .noArguments
  · rename_i hat
    obtain ⟨⟨e, k⟩, hk, h⟩ := bind_ok h
    have hd := he hi hk
    have hl := (soundStep_moreArguments he).chain hd.ready h
    refine ⟨.arguments ?_ hd.derives hl.derives, hl.fault.trans hd.fault, hl.ready⟩
    simpa only [Input.isAt_eq_headIs, Bool.not_eq_true] using hat

include he in
/-- Arguments in brackets, between the two brackets. -/
theorem enclosed_ok {b : Bracket} {i j : Input} {es : List Expr}
    (hn : i.next = some (.opening b)) (h : enclosed deeper b i = .ok (es, j)) :
    ∃ ts, i.tokens = .opening b :: ts ∧
      Derives (.arguments b es) ts (.closing b :: j.tokens) ∧ j.fault = i.fault ∧ j.Ready := by
  unfold enclosed at h
  obtain ⟨k, hk, h⟩ := bind_ok h
  obtain ⟨⟨es', l⟩, hl, h⟩ := bind_ok h
  obtain ⟨m, hm, h⟩ := bind_ok h
  cases h
  obtain ⟨ht, hf, hr⟩ := Input.advance_past hn hk
  have ha := sound_arguments he b hr hl
  obtain ⟨hc, hg, hs⟩ := Input.expect_closing_ok hm
  exact ⟨_, ht, hc ▸ ha.derives, hg.trans (ha.fault.trans hf), hs⟩

include he in
/-- A primary is read soundly. -/
theorem sound_primary : Sound (primary deeper) .primary := by
  intro i j e hi h
  unfold primary at h
  split at h
  case h_1 n hn =>
    obtain ⟨k, hk, h⟩ := bind_ok h
    cases h
    exact Input.leads_past hn hk fun _ => .integer
  case h_2 x hn =>
    obtain ⟨k, hk, h⟩ := bind_ok h
    cases h
    exact Input.leads_past hn hk fun _ => .decimal
  case h_3 b hn =>
    obtain ⟨k, hk, h⟩ := bind_ok h
    cases h
    exact Input.leads_past hn hk fun _ => .boolean
  case h_4 s hn =>
    obtain ⟨k, hk, h⟩ := bind_ok h
    cases h
    exact Input.leads_past hn hk fun _ => .name
  case h_5 hn =>
    obtain ⟨k, hk, h⟩ := bind_ok h
    obtain ⟨⟨e', l⟩, hl, h⟩ := bind_ok h
    obtain ⟨m, hm, h⟩ := bind_ok h
    cases h
    obtain ⟨ht, hf, hr⟩ := Input.advance_past hn hk
    have hd := he hr hl
    obtain ⟨hc, hg, hs⟩ := Input.expect_closing_ok hm
    exact ⟨ht ▸ .group (hc ▸ hd.derives), hg.trans (hd.fault.trans hf), hs⟩
  case h_6 hn =>
    obtain ⟨⟨es, k⟩, hk, h⟩ := bind_ok h
    cases h
    obtain ⟨ts, ht, hd, hf, hr⟩ := enclosed_ok he hn hk
    exact ⟨ht ▸ .braces hd, hf, hr⟩
  case h_7 => cases h

include he in
/-- A call is read soundly. -/
theorem sound_application : Sound (application deeper) .application := by
  intro i j e hi h
  unfold application at h
  obtain ⟨⟨e', k⟩, hk, h⟩ := bind_ok h
  have hp := sound_primary he hi hk
  dsimp only at h
  split at h
  · rename_i s hn
    obtain ⟨⟨es, l⟩, hl, h⟩ := bind_ok h
    cases h
    obtain ⟨ts, ht, hd, hf, hr⟩ := enclosed_ok he hn hl
    exact ⟨.call rfl (ht ▸ hp.derives) hd, hf.trans hp.fault, hr⟩
  · rename_i s hn
    obtain ⟨⟨es, l⟩, hl, h⟩ := bind_ok h
    cases h
    obtain ⟨ts, ht, hd, hf, hr⟩ := enclosed_ok he hn hl
    exact ⟨.call rfl (ht ▸ hp.derives) hd, hf.trans hp.fault, hr⟩
  · rename_i hround hsquare
    cases h
    refine ⟨.plain hp.derives fun hs => ?_, hp.fault, hp.ready⟩
    obtain ⟨s, hs⟩ := Option.isSome_iff_exists.mp hs
    have hsym := Expr.symbolName?_eq_some.mp hs
    refine Input.headIs_eq_false fun t hnext => ?_
    cases t with
    | opening b =>
      cases b with
      | round => exact absurd hnext (hround s hsym)
      | square => exact absurd hnext (hsquare s hsym)
      | curly => rfl
    | _ => rfl

include he ho in
/-- A power is read soundly. -/
theorem sound_power : Sound (power deeper) .power := by
  intro i j e hi h
  unfold power at h
  obtain ⟨⟨b, k⟩, hk, h⟩ := bind_ok h
  have ha := sound_application he hi hk
  dsimp only at h
  split at h
  · rename_i hat
    obtain ⟨l, hl, h⟩ := bind_ok h
    obtain ⟨⟨x, m⟩, hm, h⟩ := bind_ok h
    cases h
    obtain ⟨ht, hf, hr⟩ := Input.advance_past (Input.next_of_isAt hat) hl
    have hd := ho hr hm
    exact ⟨.raised (ht ▸ ha.derives) hd.derives, hd.fault.trans (hf.trans ha.fault), hd.ready⟩
  · rename_i hat
    cases h
    exact ⟨.base (by simpa only [Input.isAt_eq_headIs, Bool.not_eq_true] using hat) ha.derives,
      ha.fault, ha.ready⟩

include he ho in
/-- A signed operand is read soundly. -/
theorem sound_unary : Sound (unary deeper) .unary := by
  intro i j e hi h
  unfold unary at h
  split at h
  · rename_i hn
    obtain ⟨k, hk, h⟩ := bind_ok h
    obtain ⟨⟨e', l⟩, hl, h⟩ := bind_ok h
    cases h
    obtain ⟨ht, hf, hr⟩ := Input.advance_past hn hk
    have hd := ho hr hl
    exact ⟨ht ▸ .minus hd.derives, hd.fault.trans hf, hd.ready⟩
  · rename_i hn
    obtain ⟨k, hk, h⟩ := bind_ok h
    obtain ⟨ht, hf, hr⟩ := Input.advance_past hn hk
    have hd := ho hr h
    exact ⟨ht ▸ .plus hd.derives, hd.fault.trans hf, hd.ready⟩
  · rename_i hminus hplus
    have hd := sound_power he ho hi h
    refine ⟨.unsigned (Input.headIs_eq_false fun t hnext => ?_) hd.derives, hd.fault, hd.ready⟩
    cases t with
    | operation f =>
      cases f with
      | add => exact absurd hnext hplus
      | subtract => exact absurd hnext hminus
      | _ => rfl
    | _ => rfl

include he ho in
/-- A factor directly behind another. -/
theorem factor_beside {t : Token} {a e : Expr} {i l : Input} (hn : i.next = some t)
    (hl : power deeper i = .ok (e, l)) (hi : i.Ready)
    (hd : ∀ {c ts us vs}, Derives (.power e) (t :: ts) us →
      Derives (.factors (.binary .multiply a e) c) us vs → Derives (.factors a c) (t :: ts) vs) :
    l.tokens.length < i.tokens.length ∧ l.fault = i.fault ∧ l.Ready ∧
      ∀ c us, Derives (.factors (.binary .multiply a e) c) l.tokens us →
        Derives (.factors a c) i.tokens us := by
  have hp := sound_power he ho hi hl
  refine ⟨hp.derives.length_lt rfl, hp.fault, hp.ready, fun c us hc => ?_⟩
  have hderives := hp.derives
  rw [Input.tokens_of_next hn] at hderives ⊢
  exact hd hderives hc

include he ho in
/-- One more factor, behind a sign or not. -/
theorem soundStep_moreFactors : SoundStep (moreFactors deeper) .factors where
  stop a i h := by
    unfold moreFactors at h
    split at h
    case h_5 hmul hdiv hname hround =>
      refine .lastFactor (Input.headIs_eq_false fun t hnext => ?_)
      cases t with
      | operation f =>
        cases f with
        | multiply => exact absurd hnext hmul
        | divide => exact absurd hnext hdiv
        | _ => rfl
      | name s => exact absurd hnext (hname s)
      | opening b =>
        cases b with
        | round => exact absurd hnext hround
        | _ => rfl
      | _ => rfl
    all_goals
      repeat obtain ⟨_, _, h⟩ := bind_ok h
      cases h
  more a b i j hi h := by
    unfold moreFactors at h
    split at h
    case h_1 hn =>
      obtain ⟨k, hk, h⟩ := bind_ok h
      obtain ⟨⟨e, l⟩, hl, h⟩ := bind_ok h
      cases h
      exact (sound_unary he ho).behind hn hk hl (.nextFactor rfl)
    case h_2 hn =>
      obtain ⟨k, hk, h⟩ := bind_ok h
      obtain ⟨⟨e, l⟩, hl, h⟩ := bind_ok h
      cases h
      exact (sound_unary he ho).behind hn hk hl (.nextFactor rfl)
    case h_3 s hn =>
      obtain ⟨⟨e, l⟩, hl, h⟩ := bind_ok h
      cases h
      exact factor_beside he ho hn hl hi .besideName
    case h_4 hn =>
      obtain ⟨⟨e, l⟩, hl, h⟩ := bind_ok h
      cases h
      exact factor_beside he ho hn hl hi .besideGroup
    case h_5 => cases h

include he ho in
/-- Products and quotients. -/
theorem sound_product : Sound (product deeper) .product :=
  (sound_unary he ho).chained (soundStep_moreFactors he ho) .product

include he ho in
/-- One more summand behind its sign. -/
theorem soundStep_moreSummands : SoundStep (moreSummands deeper) .summands where
  stop a i h := by
    unfold moreSummands at h
    split at h
    case h_3 hadd hsub =>
      refine .lastSummand (Input.headIs_eq_false fun t hnext => ?_)
      cases t with
      | operation f =>
        cases f with
        | add => exact absurd hnext hadd
        | subtract => exact absurd hnext hsub
        | _ => rfl
      | _ => rfl
    all_goals
      repeat obtain ⟨_, _, h⟩ := bind_ok h
      cases h
  more a b i j hi h := by
    unfold moreSummands at h
    split at h
    case h_1 hn =>
      obtain ⟨k, hk, h⟩ := bind_ok h
      obtain ⟨⟨e, l⟩, hl, h⟩ := bind_ok h
      cases h
      exact (sound_product he ho).behind hn hk hl (.nextSummand rfl)
    case h_2 hn =>
      obtain ⟨k, hk, h⟩ := bind_ok h
      obtain ⟨⟨e, l⟩, hl, h⟩ := bind_ok h
      cases h
      exact (sound_product he ho).behind hn hk hl (.nextSummand rfl)
    case h_3 => cases h

include he ho in
/-- Sums and differences. -/
theorem sound_sum : Sound (sum deeper) .sum :=
  (sound_product he ho).chained (soundStep_moreSummands he ho) .sum

include he ho in
/-- One more side of a comparison behind its sign. -/
theorem soundStep_moreSides : SoundStep (moreSides deeper) .sides where
  stop a i h := by
    unfold moreSides at h
    split at h
    · repeat obtain ⟨_, _, h⟩ := bind_ok h
      cases h
    · rename_i hrel
      refine .lastSide (Input.headIs_eq_false fun t hnext => ?_)
      cases t with
      | relation f => exact absurd hnext (hrel f)
      | _ => rfl
  more a b i j hi h := by
    unfold moreSides at h
    split at h
    · rename_i f hn
      obtain ⟨k, hk, h⟩ := bind_ok h
      obtain ⟨⟨e, l⟩, hl, h⟩ := bind_ok h
      cases h
      exact (sound_sum he ho).behind hn hk hl .nextSide
    · cases h

include he ho in
/-- Comparisons. -/
theorem sound_comparison : Sound (comparison deeper) .expression :=
  (sound_sum he ho).chained (soundStep_moreSides he ho) .expression

end

/-! ## All levels -/

/-- The rules of every level are sound. -/
theorem sound_level (n : Nat) :
    Sound (level n).expression .expression ∧ Sound (level n).operand .unary := by
  induction n with
  | zero =>
    constructor
    · intro i j e hi h
      cases h
    · intro i j e hi h
      cases h
  | succ n ih => exact ⟨sound_comparison ih.1 ih.2, sound_unary ih.1 ih.2⟩

/-- A text that is read has tokens only, and they make up the expression. -/
theorem derives_of_parse {s : String} {e : Expr} (h : parse s = .ok e) :
    ∃ ts, Token.scanAll s.toList = (ts, none) ∧ Derives (.expression e) ts [] ∧
      e.depth ≤ maxHeight := by
  unfold parse at h
  obtain ⟨i, hi, h⟩ := bind_ok h
  obtain ⟨⟨e', j⟩, hj, h⟩ := bind_ok h
  obtain ⟨ht, hf, hr⟩ := Input.before_ok hi
  have hl := (sound_level maxLevels).1 hr hj
  dsimp only at h
  split at h
  · cases h
  · rename_i hn
    split at h
    · cases h
    · rename_i hd
      cases h
      have hnil : j.tokens = [] := List.head?_eq_none_iff.mp hn
      have hnone := hl.ready hnil
      rw [hl.fault, hf] at hnone
      refine ⟨(Token.scanAll s.toList).1, Prod.ext rfl hnone, ?_, Nat.le_of_not_lt hd⟩
      rw [← ht, ← hnil]
      exact hl.derives

end Reckoner.Grammar
