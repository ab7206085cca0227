import Reckoner.Expr.Printer
import Reckoner.Proofs.Grammar.Completeness
import Reckoner.Proofs.Grammar.Fitting
import Reckoner.Proofs.Grammar.Lexemes

/-!
# Printing and reading back

The canonical text of an expression without approximate numbers is read as an expression that
agrees with it, unless it nests too deeply. The text of every part is read as tokens that fit
the level of the part; brackets stand exactly where this level does not suffice. A sum whose
second operand starts with a minus sign has the text of a difference.
-/

namespace Reckoner

open Reckoner.Expr Token Grammar

-- The equations are derived here, once for all proofs below.
attribute [grind =] print printAll

/-- Numbers are exact, in range, and not the least one; the names of symbols and calls are
names that can be read. -/
inductive Expr.Writable : Expr → Prop where
  | exact {q : Fraction} : Fraction.least < q.num → q.num ≤ Fraction.greatest →
    0 < q.den → q.den ≤ Fraction.greatest → Writable (.exact q)
  | symbol {s : String} : isName s = true → Writable (.symbol s)
  | boolean (b : Bool) : Writable (.boolean b)
  | neg {a : Expr} : Writable a → Writable (.neg a)
  | binary {f : Operation} {a b : Expr} : Writable a → Writable b → Writable (.binary f a b)
  | compare {f : Relation} {a b : Expr} : Writable a → Writable b → Writable (.compare f a b)
  | call {s : String} {as : List Expr} : isName s = true → (∀ a ∈ as, Writable a) →
    Writable (.call s as)
  | list {as : List Expr} : (∀ a ∈ as, Writable a) → Writable (.list as)

namespace Token

/-- The text does not lengthen a sign in front of it. -/
def Opens (s : List Char) : Prop := startsWith (· != '=') s = true

/-- In front of anything else the text still lengthens no sign. -/
theorem Opens.unstroked {s : List Char} (h : Opens s) (rest : List Char) :
    Unstroked (s ++ rest) := by
  cases s with
  | nil => cases h
  | cons c s =>
    have hc : c ≠ '=' := by simpa [Opens] using h
    simpa [Unstroked] using hc

/-- Only the first character counts. -/
theorem Opens.append {s : List Char} (h : Opens s) (rest : List Char) : Opens (s ++ rest) :=
  startsWith_append h rest

/-- Signs and brackets end numbers and names. -/
theorem apart_mark {t : Token} (h : t.isMark = true) (rest : List Char) :
    Apart (t.text.toList ++ rest) := by
  cases t with
  | operation f => cases f <;> rfl
  | relation f => cases f <;> rfl
  | opening b => cases b <;> rfl
  | closing b => cases b <;> rfl
  | comma => rfl
  | _ => cases h

/-- Two operands and a sign between them. -/
theorem Lexes.between {s s' : List Char} {ts ts' : List Token} {t : Token} (ht : t.isMark = true)
    (h : Lexes Apart s ts) (h' : Lexes Apart s' ts') (ho : Opens s') :
    Lexes Apart (s ++ (t.text.toList ++ s')) (ts ++ t :: ts') := by
  refine h.append ((lexes_mark ht).append h' fun rest _ => ho.unstroked rest) fun rest _ => ?_
  rw [List.append_assoc]
  exact apart_mark ht _

/-- What stands in brackets. -/
theorem Lexes.bracketed {s : List Char} {ts : List Token} (b : Bracket) (h : Lexes Apart s ts)
    (hu : ∀ rest, Unstroked (s ++ b.closer.toList ++ rest)) :
    Lexes Apart (b.opener.toList ++ (s ++ b.closer.toList))
      (.opening b :: (ts ++ [.closing b])) := by
  have hclosed : Lexes Anything (s ++ b.closer.toList) (ts ++ [.closing b]) :=
    h.append (lexes_closing b) fun rest _ => apart_mark (t := .closing b) rfl rest
  exact ((lexes_mark (t := .opening b) rfl).append hclosed fun rest _ => hu rest).mono
    fun _ _ => trivial

/-- The text is read as the tokens, in front of anything that neither goes on a number or a name
nor lengthens a sign, and it does not lengthen a sign in front of it. -/
structure Written (s : List Char) (ts : List Token) : Prop where
  /-- The text is read as the tokens. -/
  lexes : Lexes Apart s ts
  /-- The text does not lengthen a sign. -/
  opens : Opens s

/-- A sign between two texts. -/
theorem Written.between {s s' : List Char} {ts ts' : List Token} {t : Token} (ht : t.isMark = true)
    (h : Written s ts) (h' : Written s' ts') :
    Written (s ++ (t.text.toList ++ s')) (ts ++ t :: ts') :=
  ⟨h.lexes.between ht h'.lexes h'.opens, h.opens.append _⟩

/-- A minus sign in front of a text. -/
theorem Written.negated {s : List Char} {ts : List Token} (h : Written s ts) :
    Written ("-".toList ++ s) (.operation .subtract :: ts) :=
  ⟨(lexes_mark (t := .operation .subtract) rfl).append h.lexes fun rest _ => h.opens.unstroked rest,
    rfl⟩

/-- Brackets around a text. -/
theorem Written.grouped {s : String} {ts : List Token} (h : Written s.toList ts) :
    Written (Expr.grouped true s).toList (.opening .round :: (ts ++ [.closing .round])) := by
  have hu (rest : List Char) : Unstroked (s.toList ++ Bracket.round.closer.toList ++ rest) := by
    rw [List.append_assoc]
    exact h.opens.unstroked _
  have hb := h.lexes.bracketed .round hu
  rw [← List.append_assoc] at hb
  simp only [Expr.grouped, if_true, String.toList_append]
  exact ⟨hb, rfl⟩

end Token

namespace Grammar

/-- The text is read as tokens that fit a place of the level. -/
def Reads (n : Nat) (e : Expr) (s : List Char) : Prop :=
  ∃ ts, Written s ts ∧ Fits e ts n

variable {e f a b : Expr} {m n : Nat} {s s' : List Char}

/-- The tree may be exchanged for one that agrees. -/
theorem Reads.agrees (h : Reads n e s) (hf : Agrees e f) : Reads n f s := by
  obtain ⟨ts, hw, hfit⟩ := h
  exact ⟨ts, hw, hfit.agrees hf⟩

/-- What fits a place fits a looser one. -/
theorem Reads.loosen (h : Reads n e s) (hmn : m ≤ n) : Reads m e s := by
  obtain ⟨ts, hw, hfit⟩ := h
  exact ⟨ts, hw, hfit.loosen hmn⟩

/-- A sign between two texts, where the tokens fit on both sides of it. -/
theorem Reads.between {t : Token} {k : Nat} (ht : t.isMark = true) (ha : Reads m a s)
    (hb : Reads n b s')
    (hfit : ∀ ts ts', Fits a ts m → Fits b ts' n → Fits e (ts ++ t :: ts') k) :
    Reads k e (s ++ (t.text.toList ++ s')) := by
  obtain ⟨ts, hw, hfa⟩ := ha
  obtain ⟨ts', hw', hfb⟩ := hb
  exact ⟨ts ++ t :: ts', hw.between ht hw', hfit ts ts' hfa hfb⟩

/-- An operand stands in brackets where it has to. -/
theorem Reads.grouped {t : String} {needed : Bool} (h : Reads e.level e t.toList)
    (hn : needed = false → n ≤ e.level) : Reads n e (grouped needed t).toList := by
  cases needed with
  | false => exact h.loosen (hn rfl)
  | true =>
    obtain ⟨ts, hw, hfit⟩ := h.loosen (Nat.zero_le _)
    exact ⟨_, hw.grouped, hfit.group⟩

/-! ## Leaves -/

/-- A name lengthens no sign. -/
theorem opens_name {s : String} (h : isName s = true) : Opens s.toList := by
  unfold isName at h
  split at h
  · cases h
  · rename_i c cs hs
    simp only [Bool.and_eq_true] at h
    have hn := toNat_of_isWordStart h.1.1.1
    rw [hs, Opens, startsWith_cons, bne_iff_ne]
    rintro rfl
    revert hn
    decide

/-- A name is read as one token. -/
theorem written_name {s : String} (h : isName s = true) : Written s.toList [.name s] :=
  ⟨lexes_name h, opens_name h⟩

/-- A name is read as a symbol. -/
theorem reads_name {s : String} (h : isName s = true) : Reads 5 (.symbol s) s.toList :=
  ⟨_, written_name h, Fits.symbol s⟩

/-- A truth value is read as one token. -/
theorem written_boolean (b : Bool) :
    Written (print none (.boolean b)).toList [.boolean b] := by
  cases b with
  | false => exact ⟨lexes_word (c := 'F') (by decide) (List.all_eq_true.mp (by decide)), rfl⟩
  | true => exact ⟨lexes_word (c := 'T') (by decide) (List.all_eq_true.mp (by decide)), rfl⟩

/-- A truth value is read as itself. -/
theorem reads_boolean (b : Bool) : Reads 5 (.boolean b) (print none (.boolean b)).toList :=
  ⟨_, written_boolean b, Fits.boolean b⟩

/-- A digit does not lengthen a sign. -/
theorem opens_digit {c : Char} {cs : List Char} (hc : c.isDigit = true) : Opens (c :: cs) := by
  have hn := toNat_of_isDigit hc
  rw [Opens, startsWith_cons, bne_iff_ne]
  rintro rfl
  revert hn
  decide

/-- A natural number of the range is read as one token. -/
theorem written_integer {n : Int} (h : 0 ≤ n ∧ n ≤ Fraction.greatest) :
    Written (toString n).toList [.integer n] := by
  refine ⟨lexes_integer h, ?_⟩
  obtain ⟨m, rfl⟩ := Int.eq_ofNat_of_zero_le h.1
  rw [toList_toString_natCast]
  cases hd : Nat.toDigits 10 m with
  | nil => exact absurd hd Nat.toDigits_ne_nil
  | cons c cs =>
    have hc : c.isDigit = true :=
      Nat.isDigit_of_mem_toDigits (by decide) (by decide) (hd ▸ List.mem_cons_self)
    exact opens_digit hc

/-- The text of a natural number of the range. -/
theorem reads_integer {n : Int} (h : 0 ≤ n ∧ n ≤ Fraction.greatest) :
    Reads 5 (.ofInt n) (toString n).toList :=
  ⟨_, written_integer h, Fits.integer n⟩

/-- A minus sign in front of a signed operand. -/
theorem Reads.neg (h : Reads 3 a s) : Reads 3 (.neg a) ("-".toList ++ s) := by
  obtain ⟨ts, hw, hfit⟩ := h
  exact ⟨_, hw.negated, hfit.neg⟩

private theorem agrees_whole {q : Fraction} (h : q.den = 1) : Agrees (.ofInt q.num) (.exact q) :=
  fun i => by
    simp only [Interpretation.value, Expr.ofInt, Fraction.value, Fraction.ofInt, h]

private theorem agrees_quotient (q : Fraction) :
    Agrees (.binary .divide (.ofInt q.num) (.ofInt q.den)) (.exact q) := fun i => by
  simp only [Interpretation.value, Interpretation.operation, Expr.ofInt, Fraction.value_ofInt]
  rfl

private theorem agrees_negative (q : Fraction) {e : Expr}
    (h : Agrees e (.exact ⟨-q.num, q.den⟩)) : Agrees (.neg e) (.exact q) := fun i => by
  have hi := h i
  simp only [Interpretation.value, Fraction.value, Int.cast_neg, neg_div] at hi ⊢
  rw [hi, neg_neg]

/-- The text of a fraction that is not negative. -/
theorem reads_natural {q : Fraction} (hn : 0 ≤ q.num ∧ q.num ≤ Fraction.greatest)
    (hd : 0 < q.den ∧ q.den ≤ Fraction.greatest) :
    Reads (Expr.exact q).level (.exact q) q.text.toList := by
  have hsign : ¬ q.num < 0 := by omega
  simp only [Expr.level, hsign, if_false, Fraction.isWhole, beq_iff_eq, Fraction.text]
  by_cases h : q.den = 1
  · simp only [if_pos h]
    exact (reads_integer hn).agrees (agrees_whole h)
  · simp only [if_neg h, String.toList_append, List.append_assoc]
    refine Reads.agrees ?_ (agrees_quotient q)
    have hnum := (reads_integer hn).loosen (show 2 ≤ 5 by decide)
    have hden := (reads_integer ⟨hd.1.le, hd.2⟩).loosen (show 4 ≤ 5 by decide)
    exact hnum.between (t := .operation .divide) rfl hden fun ts ts' => Fits.divide

/-- The text of a fraction fits its level. -/
theorem reads_exact {q : Fraction} (hl : Fraction.least < q.num) (hg : q.num ≤ Fraction.greatest)
    (hd : 0 < q.den ∧ q.den ≤ Fraction.greatest) :
    Reads (Expr.exact q).level (.exact q) q.text.toList := by
  by_cases hsign : q.num < 0
  · have hn : 0 ≤ -q.num ∧ -q.num ≤ Fraction.greatest := by
      simp only [Fraction.least, Fraction.greatest] at hl ⊢
      omega
    have hnum := reads_integer hn
    simp only [Expr.level, hsign, if_true, Fraction.text, toString_neg hsign]
    by_cases h : q.den = 1
    · simp only [if_pos h, String.toList_append]
      refine (hnum.loosen (show 3 ≤ 5 by decide)).neg.agrees (agrees_negative q ?_)
      exact agrees_whole (q := ⟨-q.num, q.den⟩) h
    · simp only [if_neg h, String.toList_append, List.append_assoc]
      refine Reads.agrees ?_ (agrees_negative q (agrees_quotient ⟨-q.num, q.den⟩))
      have hquotient := (written_integer hn).between (t := .operation .divide) rfl
        (written_integer ⟨hd.1.le, hd.2⟩)
      exact ⟨_, hquotient.negated, Fits.negative_fraction (-q.num) q.den⟩
  · exact reads_natural ⟨by omega, hg⟩ hd

/-! ## Arguments -/

/-- The text is read as the tokens in front of a closing bracket, and does not lengthen a sign. -/
structure WrittenArguments (s : List Char) (ts : List Token) : Prop where
  /-- The text is read as the tokens. -/
  lexes : Lexes Apart s ts
  /-- Neither the text nor the bracket lengthens a sign. -/
  opens : ∀ b rest, Unstroked (s ++ (Bracket.closer b).toList ++ rest)

/-- A call is written with its arguments in round brackets. -/
theorem WrittenArguments.call {f : String} {ts : List Token} (hf : isName f = true)
    (h : WrittenArguments s ts) :
    Written (f.toList ++ ("(".toList ++ (s ++ ")".toList)))
      (.name f :: .opening .round :: (ts ++ [.closing .round])) :=
  ⟨(lexes_name hf).append (h.lexes.bracketed .round (h.opens .round)) fun _ _ =>
    apart_mark (t := .opening .round) rfl _, (opens_name hf).append _⟩

/-- A list is written with its items in braces. -/
theorem WrittenArguments.list {ts : List Token} (h : WrittenArguments s ts) :
    Written ("\x7b".toList ++ (s ++ "\x7d".toList))
      (.opening .curly :: (ts ++ [.closing .curly])) :=
  ⟨h.lexes.bracketed .curly (h.opens .curly), rfl⟩

private theorem toList_intercalate_comma (s : String) (ss : List String) :
    (String.intercalate "," (s :: ss)).toList =
      s.toList ++ ss.flatMap fun t => ',' :: t.toList := by
  induction ss generalizing s with
  | nil => simp only [String.intercalate_singleton, List.flatMap_nil, List.append_nil]
  | cons t ss ih =>
    rw [String.intercalate_cons_cons, String.toList_append, String.toList_append, ih,
      List.flatMap_cons, List.append_assoc]
    rfl

private theorem apart_commas (ss : List String) {rest : List Char} (h : Apart rest) :
    Apart ((ss.flatMap fun t => ',' :: t.toList) ++ rest) := by
  cases ss with
  | nil => exact h
  | cons t ss => rfl

section

variable (first : Expr → List Token → Prop) (more all : List Expr → List Token → Prop)
  (hmore : more [] []) (hcons : ∀ {a as ts ts'}, first a ts → more as ts' →
    more (a :: as) (.comma :: ts ++ ts'))

include hmore hcons in
private theorem exists_writtenMore {as : List Expr}
    (h : ∀ a ∈ as, ∃ ts, Written (a.print none).toList ts ∧ first a ts) :
    ∃ ts, Lexes Apart ((as.map (print none)).flatMap fun t => ',' :: t.toList) ts ∧ more as ts := by
  induction as with
  | nil => exact ⟨[], Lexes.nil, hmore⟩
  | cons a as ih =>
    obtain ⟨ts, hw, hfirst⟩ := h a List.mem_cons_self
    obtain ⟨ts', hl', hrest⟩ := ih fun b hb => h b (List.mem_cons_of_mem a hb)
    refine ⟨.comma :: (ts ++ ts'), ?_, hcons hfirst hrest⟩
    have hlexes := hw.lexes.append hl' fun rest hr => apart_commas (as.map (print none)) hr
    exact (lexes_mark (t := .comma) rfl).append hlexes fun rest _ =>
      (hw.opens.append _).unstroked rest

include hmore hcons in
/-- Expressions between commas are written as arguments, whatever is known of the tokens of each. -/
theorem exists_writtenArguments (hnil : all [] [])
    (hall : ∀ {a as ts ts'}, first a ts → more as ts' → all (a :: as) (ts ++ ts')) {as : List Expr}
    (h : ∀ a ∈ as, ∃ ts, Written (a.print none).toList ts ∧ first a ts) :
    ∃ ts, WrittenArguments (String.intercalate "," (printAll none as)).toList ts ∧ all as ts := by
  rw [printAll_eq_map]
  cases as with
  | nil => exact ⟨[], ⟨Lexes.nil, fun b rest => by cases b <;> rfl⟩, hnil⟩
  | cons a as =>
    obtain ⟨ts, hw, hfirst⟩ := h a List.mem_cons_self
    obtain ⟨ts', hl', hrest⟩ :=
      exists_writtenMore first more hmore hcons fun b hb => h b (List.mem_cons_of_mem a hb)
    rw [List.map_cons, toList_intercalate_comma]
    refine ⟨ts ++ ts', ⟨hw.lexes.append hl' fun rest hr => apart_commas _ hr, fun b rest => ?_⟩,
      hall hfirst hrest⟩
    rw [List.append_assoc, List.append_assoc]
    exact hw.opens.unstroked _

end

/-- The text is read as arguments. -/
def ReadsArguments (es : List Expr) (s : List Char) : Prop :=
  ∃ ts, WrittenArguments s ts ∧ FitsArguments es ts

/-- Expressions between commas are arguments. -/
theorem readsArguments {as : List Expr}
    (h : ∀ a ∈ as, Reads a.level a (a.print none).toList) :
    ReadsArguments as (String.intercalate "," (printAll none as)).toList :=
  exists_writtenArguments (fun a ts => Fits a ts 0) FitsMore FitsArguments FitsMore.nil
    FitsMore.cons FitsArguments.nil FitsArguments.cons fun a ha => (h a ha).loosen (Nat.zero_le _)

/-- A call with readable arguments. -/
theorem ReadsArguments.call {es : List Expr} {f : String} (hf : isName f = true)
    (h : ReadsArguments es s) :
    Reads 5 (.call f es) (f.toList ++ ("(".toList ++ (s ++ ")".toList))) := by
  obtain ⟨ts, hw, hfits⟩ := h
  exact ⟨_, hw.call hf, hfits.call f⟩

/-- A list with readable items. -/
theorem ReadsArguments.list {es : List Expr} (h : ReadsArguments es s) :
    Reads 5 (.list es) ("\x7b".toList ++ (s ++ "\x7d".toList)) := by
  obtain ⟨ts, hw, hfits⟩ := h
  exact ⟨_, hw.list, hfits.list⟩

/-! ## Operations -/

/-- What binds like a sign has one. -/
theorem level_ne_three {e : Expr} (h : e.isNegative = false) : e.level ≠ 3 := by
  cases e with
  | neg a => cases h
  | exact q =>
    have hq : ¬ q.num < 0 := by simpa [isNegative] using h
    simp only [Expr.level, hq, if_false]
    split <;> decide
  | real x =>
    have hx : ¬ x < 0.0 := by simpa [isNegative] using h
    simp only [Expr.level, hx, if_false]
    decide
  | binary f a b => cases f <;> simp [Expr.level, Operation.level]
  | _ => simp [Expr.level]

theorem one_lt_level_exact (q : Fraction) : 1 < (Expr.exact q).level := by
  simp only [Expr.level]
  split
  · decide
  · split <;> decide

private theorem le_of_not_needed {k n : Nat} (h : decide (k < n) = false) : n ≤ k :=
  Nat.le_of_not_lt (of_decide_eq_false h)

/-- A negative fraction is subtracted without its sign. -/
theorem print_add_negative {q p : Fraction} (hq : q.num < 0) (hp : q.neg? = some p) (a : Expr) :
    print none (.binary .add a (.exact q)) = print none (.binary .subtract a (.exact p)) := by
  have hnum : p.num = -q.num := by
    simp only [Fraction.neg?, Option.bind_eq_bind, Option.bind_eq_some_iff,
      Fraction.inRange?_eq_some] at hp
    obtain ⟨n, ⟨_, rfl⟩, hn⟩ := hp
    cases hn
    rfl
  have hneeded : (decide ((Expr.exact p).level ≤ 1) || (Expr.exact p).isNegative) = false := by
    have hl := one_lt_level_exact p
    simp only [Bool.or_eq_false_iff, decide_eq_false_iff_not, isNegative]
    omega
  simp only [print, hq, if_true, negatedText, hp, hneeded, Expr.grouped, Bool.false_eq_true,
    if_false]

/-- The text of the expression fits its level. -/
def Readable (e : Expr) : Prop := Reads e.level e (e.print none).toList

/-- A difference of readable operands. -/
theorem Readable.subtract (ha : Readable a) (hb : Readable b) :
    Readable (.binary .subtract a b) := by
  simp only [Readable, print, String.toList_append, List.append_assoc]
  refine (ha.grouped le_of_not_needed).between (t := .operation .subtract) rfl
    (hb.grouped fun h => ?_) fun _ _ => Fits.subtract
  simp only [Bool.or_eq_false_iff, decide_eq_false_iff_not] at h
  omega

private theorem Readable.add_plain (ha : Readable a) (hb : Readable b)
    (h : print none (.binary .add a b) =
      Expr.grouped (a.level < 1) (print none a) ++ "+" ++
        Expr.grouped (b.level < 1) (print none b)) :
    Readable (.binary .add a b) := by
  simp only [Readable, h, String.toList_append, List.append_assoc]
  exact (ha.grouped le_of_not_needed).between (t := .operation .add) rfl
    (hb.grouped le_of_not_needed) fun _ _ => Fits.add

/-- A sum whose second operand starts with a minus sign has the text of a difference. -/
theorem Readable.add (ha : Readable a) (hb : Readable b) (hw : b.Writable)
    (hneg : ∀ c, b = .neg c → Readable c) : Readable (.binary .add a b) := by
  cases hw with
  | neg =>
    refine Reads.agrees (ha.subtract (hneg _ rfl)) fun i => ?_
    simp only [Interpretation.value, Interpretation.operation, sub_eq_add_neg]
  | @exact q hl hg hd hdg =>
    by_cases hq : q.num < 0
    · have hrange : Fraction.least ≤ -q.num ∧ -q.num ≤ Fraction.greatest := by
        simp only [Fraction.least, Fraction.greatest] at hl ⊢
        omega
      have hopposite : Readable (.exact ⟨-q.num, q.den⟩) :=
        reads_natural ⟨by simp only; omega, hrange.2⟩ ⟨hd, hdg⟩
      have hp : q.neg? = some ⟨-q.num, q.den⟩ := by
        simp [Fraction.neg?, Fraction.inRange?, hrange]
      rw [Readable, print_add_negative hq hp]
      refine Reads.agrees (ha.subtract hopposite) fun i => ?_
      simp only [Interpretation.value, Interpretation.operation, Fraction.value, Int.cast_neg,
        neg_div, sub_neg_eq_add]
    · refine ha.add_plain hb ?_
      have hneeded : ¬ (Expr.exact q).level < 1 := by
        have := one_lt_level_exact q
        omega
      simp only [print, hq, if_false, hneeded, decide_false, Expr.grouped, Bool.false_eq_true]
  | symbol => exact ha.add_plain hb (by simp only [print])
  | boolean => exact ha.add_plain hb (by simp only [print])
  | binary => exact ha.add_plain hb (by simp only [print])
  | compare => exact ha.add_plain hb (by simp only [print])
  | call => exact ha.add_plain hb (by simp only [print])
  | list => exact ha.add_plain hb (by simp only [print])

/-- A product of readable operands. -/
theorem Readable.multiply (ha : Readable a) (hb : Readable b) :
    Readable (.binary .multiply a b) := by
  simp only [Readable, print, String.toList_append, List.append_assoc]
  refine (ha.grouped le_of_not_needed).between (t := .operation .multiply) rfl
    (hb.grouped fun h => ?_) fun _ _ => Fits.multiply
  simp only [Bool.or_eq_false_iff, decide_eq_false_iff_not] at h
  omega

/-- A quotient of readable operands. -/
theorem Readable.divide (ha : Readable a) (hb : Readable b) : Readable (.binary .divide a b) := by
  simp only [Readable, print, String.toList_append, List.append_assoc]
  refine (ha.grouped le_of_not_needed).between (t := .operation .divide) rfl
    (hb.grouped fun h => ?_) fun _ _ => Fits.divide
  simp only [Bool.or_eq_false_iff, decide_eq_false_iff_not] at h
  have hthree := level_ne_three h.2
  omega

/-- A power of readable operands. -/
theorem Readable.raise (ha : Readable a) (hb : Readable b) : Readable (.binary .power a b) := by
  simp only [Readable, print, String.toList_append, List.append_assoc]
  refine (ha.grouped fun h => ?_).between (t := .operation .power) rfl
    (hb.grouped le_of_not_needed) fun _ _ => Fits.raise
  simp only [Bool.or_eq_false_iff, decide_eq_false_iff_not] at h
  omega

/-- A comparison of readable sides. -/
theorem Readable.compare (f : Relation) (ha : Readable a) (hb : Readable b) :
    Readable (.compare f a b) := by
  simp only [Readable, print, String.toList_append, List.append_assoc]
  exact (ha.grouped le_of_not_needed).between (t := .relation f) rfl
    (hb.grouped le_of_not_needed) fun _ _ => Fits.compare f

/-- A negation of a readable operand. -/
theorem Readable.neg (ha : Readable a) : Readable (.neg a) := by
  simp only [Readable, print, String.toList_append]
  exact (ha.grouped le_of_not_needed).neg

end Grammar

/-- The text of every part fits the level of the part. -/
theorem Expr.Writable.readable {e : Expr} (h : e.Writable) :
    Readable e ∧ ∀ c, e = .neg c → Readable c := by
  induction h with
  | exact hl hg hd hdg => exact ⟨reads_exact hl hg ⟨hd, hdg⟩, fun _ hc => by cases hc⟩
  | symbol hs => exact ⟨reads_name hs, fun _ hc => by cases hc⟩
  | boolean b => exact ⟨reads_boolean b, fun _ hc => by cases hc⟩
  | neg _ ih =>
    refine ⟨ih.1.neg, fun c hc => ?_⟩
    cases hc
    exact ih.1
  | @binary f a b _ hwb iha ihb =>
    refine ⟨?_, fun _ hc => by cases hc⟩
    cases f with
    | add => exact iha.1.add ihb.1 hwb ihb.2
    | subtract => exact iha.1.subtract ihb.1
    | multiply => exact iha.1.multiply ihb.1
    | divide => exact iha.1.divide ihb.1
    | power => exact iha.1.raise ihb.1
  | @compare f _ _ _ _ iha ihb => exact ⟨iha.1.compare f ihb.1, fun _ hc => by cases hc⟩
  | call hs _ ih =>
    refine ⟨?_, fun _ hc => by cases hc⟩
    have hargs := (readsArguments fun a ha => (ih a ha).1).call hs
    simp only [Readable, print, String.toList_append, List.append_assoc]
    exact hargs
  | list _ ih =>
    refine ⟨?_, fun _ hc => by cases hc⟩
    have hitems := (readsArguments fun a ha => (ih a ha).1).list
    simp only [Readable, print, String.toList_append, List.append_assoc]
    exact hitems

/-- The canonical text of an expression with exact numbers is read as an expression that has
the same value whatever its parts mean, or it nests too deeply; there is no other error. -/
theorem Grammar.parse_print {e : Expr} (h : e.Writable) :
    parse (e.print none) = .error .nestedTooDeeply ∨
      ∃ e', parse (e.print none) = .ok e' ∧ Agrees e' e := by
  obtain ⟨ts, ⟨hl, -⟩, hfit⟩ := h.readable.1
  obtain ⟨e', he, hd⟩ := hfit.loosen (Nat.zero_le _)
  have hderives := hd [] rfl
  rw [List.append_nil] at hderives
  rcases parse_of_derives (hl.scanAll_eq rfl) hderives with hok | herror
  · exact .inr ⟨e', hok, he⟩
  · exact .inl herror

/-- A negative summand is subtracted and read back as such. -/
theorem Grammar.parse_print_negative_summand :
    print none (.binary .add (.symbol "x") (.exact ⟨-1, 2⟩)) = "x-1/2" ∧
      ∃ e', parse "x-1/2" = .ok e' ∧
        Agrees e' (.binary .add (.symbol "x") (.exact ⟨-1, 2⟩)) := by
  have htext : print none (.binary .add (.symbol "x") (.exact ⟨-1, 2⟩)) = "x-1/2" := by
    decide +kernel
  have hread := parse_print (e := .binary .add (.symbol "x") (.exact ⟨-1, 2⟩))
    (.binary (.symbol (by decide)) (.exact (by decide) (by decide) (by decide) (by decide)))
  rw [htext] at hread
  refine ⟨htext, hread.resolve_left fun herror => ?_⟩
  have hok : (parse "x-1/2").isOk = true := by decide +kernel
  rw [herror] at hok
  cases hok

end Reckoner
