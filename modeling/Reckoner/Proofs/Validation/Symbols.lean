import Reckoner.Proofs.Validation.Whitelist

/-!
# What a checked text names

A symbol of an expression is a name among its tokens that no bracket calls. The checks see the same
name as a word that is no call, so it passes only as a single letter or as a constant.
-/

namespace Reckoner

/-- The symbols of several trees, one tree after another. -/
theorem Expr.symbolListAll_append (as bs : List Expr) :
    symbolListAll (as ++ bs) = symbolListAll as ++ symbolListAll bs := by
  induction as with
  | nil => simp only [List.nil_append, symbolListAll]
  | cons a as ih => simp only [List.cons_append, symbolListAll, ih, List.append_assoc]

namespace Grammar

variable {φ : Phrase} {ts us vs : List Token} {x : String}

/-- A name stands among the tokens, and no bracket behind it calls it. -/
def Names (ts : List Token) (x : String) : Prop :=
  ∃ before behind, ts = before ++ .name x :: behind ∧ headIs Token.opensCall behind = false

/-- A name in a rest is a name in the whole. -/
theorem Names.of_suffix (h : Names us x) (hs : us <:+ ts) : Names ts x := by
  obtain ⟨before, behind, rfl, hbehind⟩ := h
  obtain ⟨front, rfl⟩ := hs
  exact ⟨front ++ before, behind, (List.append_assoc ..).symm, hbehind⟩

theorem Names.cons (h : Names ts x) (t : Token) : Names (t :: ts) x :=
  h.of_suffix (List.suffix_cons t ts)

/-- The symbols of a phrase are names in front of no call; only a lone name may still be called. -/
def NamedIn : Phrase → List Token → List Token → Prop
  | .expression e, ts, _ | .sum e, ts, _ | .product e, ts, _ | .unary e, ts, _ | .power e, ts, _
  | .application e, ts, _ => ∀ x ∈ e.symbolList, Names ts x
  | .primary e, ts, us => ∀ x ∈ e.symbolList, Names ts x ∨ (e = .symbol x ∧ ts = .name x :: us)
  | .sides a e, ts, _ | .summands a e, ts, _ | .factors a e, ts, _ =>
    ∀ x ∈ e.symbolList, x ∈ a.symbolList ∨ Names ts x
  | .arguments _ es, ts, _ => ∀ x ∈ Expr.symbolListAll es, Names ts x
  | .moreArguments sofar es, ts, _ =>
    ∀ x ∈ Expr.symbolListAll es, x ∈ Expr.symbolListAll sofar ∨ Names ts x

/-- One more operand, of which every symbol is a name. -/
theorem namedIn_chain {a b c e : Expr} (hc : c.symbolList = a.symbolList ++ b.symbolList)
    (hb : ∀ x ∈ b.symbolList, Names ts x)
    (he : ∀ x ∈ e.symbolList, x ∈ c.symbolList ∨ Names us x) (hs : us <:+ ts) :
    ∀ x ∈ e.symbolList, x ∈ a.symbolList ∨ Names ts x := by
  intro x hx
  rcases he x hx with hx | hx
  · rw [hc, List.mem_append] at hx
    exact hx.imp_right (hb x)
  · exact .inr (hx.of_suffix hs)

/-- The operands of a chain are those of the first and those behind it. -/
theorem namedIn_operand {a e : Expr} (ha : ∀ x ∈ a.symbolList, Names ts x)
    (he : ∀ x ∈ e.symbolList, x ∈ a.symbolList ∨ Names us x) (hs : us <:+ ts) :
    ∀ x ∈ e.symbolList, Names ts x := by
  intro x hx
  rcases he x hx with hx | hx
  · exact ha x hx
  · exact hx.of_suffix hs

/-- Phrases have their symbols among their names. -/
theorem namedIn_of_derives (h : Derives φ ts us) : NamedIn φ ts us := by
  induction h with
  | expression ha _ iha ihc | sum ha _ iha ihc | product ha _ iha ihc =>
    exact namedIn_operand iha ihc ha.suffix
  | lastSide | lastSummand | lastFactor | lastArgument => exact fun _ => .inl
  | nextSide hb _ ihb ihc | nextSummand _ hb _ ihb ihc | nextFactor _ hb _ ihb ihc =>
    have hbehind := namedIn_chain rfl ihb ihc hb.suffix
    exact fun x hx => (hbehind x hx).imp_right (·.cons _)
  | besideName hb _ ihb ihc | besideGroup hb _ ihb ihc => exact namedIn_chain rfl ihb ihc hb.suffix
  | minus _ ih | plus _ ih => exact fun x hx => (ih x hx).cons _
  | unsigned _ _ ih | base _ _ ih => exact ih
  | @raised a b ts us vs ha _ iha ihb =>
    intro x hx
    rw [Expr.symbolList, List.mem_append] at hx
    rcases hx with hx | hx
    · exact iha x hx
    · exact (ihb x hx).of_suffix ((List.suffix_cons _ us).trans ha.suffix)
  | @plain e ts us _ hfree ih =>
    intro x hx
    rcases ih x hx with hx | ⟨rfl, rfl⟩
    · exact hx
    · exact ⟨[], us, rfl, hfree rfl⟩
  | @call s es b ts us vs _ hp _ _ iha =>
    exact fun x hx => (iha x hx).of_suffix ((List.suffix_cons _ us).trans hp.suffix)
  | integer | decimal | boolean => exact nofun
  | name =>
    intro x hx
    cases List.mem_singleton.mp hx
    exact .inr ⟨rfl, rfl⟩
  | group _ ih => exact fun x hx => .inl ((ih x hx).cons _)
  | braces _ ih => exact fun x hx => .inl ((ih x hx).cons _)
  | noArguments => exact nofun
  | @arguments b e es ts us vs _ he _ ihe ihs =>
    intro x hx
    rcases ihs x hx with hx | hx
    · rw [Expr.symbolListAll, Expr.symbolListAll, List.append_nil] at hx
      exact ihe x hx
    · exact hx.of_suffix he.suffix
  | @nextArgument sofar es e ts us vs he _ ihe ihs =>
    intro x hx
    rcases ihs x hx with hx | hx
    · rw [Expr.symbolListAll_append, List.mem_append, Expr.symbolListAll, Expr.symbolListAll,
        List.append_nil] at hx
      exact hx.imp_right fun hx => (ihe x hx).cons _
    · exact .inr ((hx.of_suffix he.suffix).cons _)

/-- Every symbol of an expression is a name that no bracket calls. -/
theorem names_of_mem_symbols {e : Expr} (h : Derives (.expression e) ts us)
    (hx : x ∈ e.symbols) : Names ts x :=
  namedIn_of_derives h x (Expr.mem_symbols.mp hx)

end Grammar

namespace Validation

open Text Vocabulary

variable {s : List Char} {x : String}

/-- No name among the tokens of a text is a truth value. -/
theorem isKeyword_eq_false (h : .name x ∈ (Token.scanAll s).1) : isKeyword x = false := by
  fun_induction Token.scanAll s with
  | case1 | case3 => cases h
  | case2 c rest _ ih => exact ih h
  | case4 c rest _ t rest' hs ih =>
    rcases List.mem_cons.mp h with hx | hx
    · obtain ⟨-, -, -, hword⟩ := name_of_scan hs hx.symm
      refine Bool.eq_false_iff.mpr fun hkeyword => ?_
      rw [isKeyword, keywords, List.contains_iff_mem, List.mem_cons, List.mem_singleton] at hkeyword
      rcases hkeyword with rfl | rfl
      · cases hword
      · cases hword
    · exact ih hx

/-- A word starts as words do. -/
theorem exists_start {w : Identifier} {f : Bool} {n : Nat} (h : Piece.word w ∈ pieces f n s) :
    ∃ c cs, w.name = c :: cs ∧ Token.isWordStart c = true := by
  fun_induction pieces f n s with
  | case1 => cases h
  | case2 f n c rest hc name behind ih =>
    rcases List.mem_cons.mp h with hw | hw
    · cases hw
      exact ⟨c, _, rfl, hc⟩
    · exact ih hw
  | case3 f n c rest _ ih =>
    rcases List.mem_cons.mp h with hw | hw
    · cases hw
    · exact ih hw

/-- Every symbol of a text that validation accepts is a single letter, an underscore or a
constant. -/
theorem symbols_of_validate {s : Service Builtin.State} {t n : String}
    (h : ((Service.validate Engine.builtin t).run.run s).1 = .ok n) :
    ∃ e, Grammar.parse n = .ok e ∧ ∀ x ∈ e.symbols,
      (∃ c, Token.isWordStart c = true ∧ x = String.singleton c) ∨ isConstant x = true := by
  obtain ⟨-, rfl, hg, hs, e, he⟩ := validate_iff.mp h
  obtain ⟨ts, hts, hd, -⟩ := Grammar.derives_of_parse he
  refine ⟨e, he, ?_⟩
  intro x hx
  obtain ⟨before, behind, hbefore, hbehind⟩ := Grammar.names_of_mem_symbols hd hx
  have htokens : (Token.scanAll (normalize t).toList).1 = before ++ .name x :: behind := by
    rw [hts, hbefore]
  obtain ⟨w, hw, rfl, hcall⟩ := exists_word_of_tokens (noExponent_of_checks hg hs)
    (fun _ => isBlank_of_mem_normalize) htokens
  obtain ⟨hrecognized, -⟩ := word_of_checks hg hs (mem_identifiers.mpr hw)
  have hkeyword : isKeyword w.text = false := by
    refine isKeyword_eq_false (s := (normalize t).toList) ?_
    rw [htokens]
    exact List.mem_append_right _ (.head _)
  rw [isRecognized, hcall, hbehind, hkeyword, Bool.false_or, Bool.or_false, Bool.or_eq_true]
    at hrecognized
  refine hrecognized.imp_left fun hsingle => ?_
  obtain ⟨c, cs, hname, hc⟩ := exists_start hw
  rw [Identifier.isSingle, hname, beq_iff_eq, List.length_cons, Nat.add_eq_right,
    List.length_eq_zero_iff] at hsingle
  refine ⟨c, hc, ?_⟩
  rw [Identifier.text, hname, hsingle]
  rfl

/-- A constant and a letter, both behind what is no part of them. -/
theorem symbols_of_validate_constant :
    ∃ e, Grammar.parse "2pi*sin(x)" = .ok e ∧ ∀ x ∈ e.symbols,
      (∃ c, Token.isWordStart c = true ∧ x = String.singleton c) ∨ isConstant x = true :=
  symbols_of_validate (accepts (t := "2 pi * sin[x]") (by decide +kernel) (by decide +kernel)
    (by decide +kernel) (by decide +kernel))

end Validation

end Reckoner
