import Reckoner.Proofs.Formula.Marks
import Reckoner.Proofs.Grammar.Lexemes

/-!
# Formulas fall apart into operands

The display form of a tree of whole numbers, letters, signs, operations and comparisons is the text
of its formula. The formula shows no sign that is looser than the root, so that it falls apart at
the last of its loosest signs, and what stands there tells the root. The one place without a
bracket that would be needed is a comparison that is the second side of a comparison or the first
operand of a sum. Where there is none, the formula tells the tree.
-/

namespace Reckoner.Expr

open Formula

/-! ## Formulas -/

/-- A letter of ASCII, or any character beyond. -/
def isLetter (c : Char) : Bool := c.isAlpha || 127 < c.toNat

/-- A name of one letter that is shown as it is: `E` and `I` are shown as the small letters. -/
def isPlainName (name : String) : Bool :=
  match name.toList with
  | [c] => isLetter c && !(['e', 'E', 'i', 'I'].contains c)
  | _ => false

/-- Natural numbers, letters, signs, operations and comparisons. -/
def isPlain : Expr → Bool
  | exact q => q.isWhole && !q.isNegative
  | symbol name => isPlainName name
  | neg a => isPlain a
  | binary _ a b | compare _ a b => isPlain a && isPlain b
  | real _ | boolean _ | call _ _ | list _ => false

/-- Marks in growing brackets where they are needed. -/
def inFence (needed : Bool) (ms : List Mark) : List Mark :=
  if needed then .fence :: (ms ++ [.fenceEnd]) else ms

/-- Marks in the braces of a command. -/
def inBraces (ms : List Mark) : List Mark := .opening :: (ms ++ [.closing])

/-- The marks of a plain expression. -/
def formula : Expr → List Mark
  | exact q => q.text.toList.map .plain
  | symbol name => name.toList.map .plain
  | neg a => .minus :: inFence (a.level < 3) (formula a)
  | binary .divide a b => .fraction :: (inBraces (formula a) ++ inBraces (formula b))
  | binary .power a b =>
    inBraces (inFence (a.level < 5) (formula a)) ++ .raise :: inBraces (formula b)
  | binary .multiply a b =>
    inFence (a.level < 2) (formula a) ++ .times :: inFence (b.level < 3) (formula b)
  | binary .add a b => formula a ++ .plus :: inFence (b.level < 2) (formula b)
  | binary .subtract a b => formula a ++ .minus :: inFence (b.level < 2) (formula b)
  | compare f a b => formula a ++ .relation f :: formula b
  | real _ | boolean _ | call _ _ | list _ => []

/-- A plain name is one letter. -/
theorem exists_of_isPlainName {name : String} (h : isPlainName name = true) :
    ∃ c, name.toList = [c] ∧ isLetter c = true ∧ c ∉ ['e', 'E', 'i', 'I'] := by
  unfold isPlainName at h
  split at h
  · rename_i c hc
    rw [Bool.and_eq_true, Bool.not_eq_true', ← Bool.not_eq_true, List.contains_iff_mem] at h
    exact ⟨c, hc, h⟩
  · cases h

/-- A letter is shown as it is. -/
theorem typesetSymbol_eq {name : String} (h : isPlainName name = true) :
    typesetSymbol name = name := by
  obtain ⟨c, hc, -, hne⟩ := exists_of_isPlainName h
  have hlong (x : String) (hx : 1 < x.toList.length) : name ≠ x := by
    rintro rfl
    rw [hc] at hx
    exact Nat.lt_irrefl 1 hx
  have hletter (x : String) (d : Char) (hx : x.toList = [d]) (hd : d ∈ ['e', 'E', 'i', 'I']) :
      name ≠ x := by
    rintro rfl
    exact hne ((List.cons.inj (hc.symm.trans hx)).1 ▸ hd)
  have hlength : name.length = 1 := by rw [← String.length_toList, hc]; rfl
  rw [typesetSymbol, if_neg (hlong _ (by decide)), if_neg (hletter _ 'E' rfl (by decide)),
    if_neg (hletter _ 'I' rfl (by decide)), if_neg (hlong _ (by decide)),
    if_neg (hlong _ (by decide)), if_neg (hlong _ (by decide)), if_neg (hlong _ (by decide)),
    if_pos hlength]

/-- Plain characters are written as themselves. -/
theorem spell_map_plain (s : List Char) : spell (s.map .plain) = s := by
  induction s with
  | nil => rfl
  | cons c s ih => exact congrArg (c :: ·) ih

theorem spell_cons (m : Mark) (ms : List Mark) : spell (m :: ms) = m.text ++ spell ms :=
  List.flatMap_cons

/-- Growing brackets around a text are marks around its marks. -/
theorem toList_fencedIf (needed : Bool) {s : String} {ms : List Mark} (h : s.toList = spell ms) :
    (fencedIf needed s).toList = spell (inFence needed ms) := by
  cases needed with
  | false => exact h
  | true =>
    simp only [fencedIf, fenced, inFence, if_true, String.toList_append, h, spell_cons,
      spell_append, List.append_assoc]
    rfl

/-- Braces around a text are marks around its marks. -/
theorem toList_braced {s : String} {ms : List Mark} (h : s.toList = spell ms) :
    (braced s).toList = spell (inBraces ms) := by
  simp only [braced, inBraces, String.toList_append, h, spell_cons, spell_append, List.append_assoc]
  rfl

/-- The display form is the text of the formula. -/
theorem toList_typeset {e : Expr} (h : e.isPlain = true) :
    (typeset e).toList = spell (formula e) := by
  fun_induction formula e with
  | case1 q =>
    rw [isPlain, Bool.and_eq_true] at h
    rw [typeset, typesetFraction, if_pos h.1, spell_map_plain]
  | case2 name => rw [typeset, typesetSymbol_eq h, spell_map_plain]
  | case3 a ih =>
    simp only [typeset, String.toList_append, toList_fencedIf _ (ih h), spell_cons]
    rfl
  | case4 a b iha ihb | case5 a b iha ihb | case6 a b iha ihb | case7 a b iha ihb
  | case8 a b iha ihb =>
    rw [isPlain, Bool.and_eq_true] at h
    have ha := iha h.1
    have hb := ihb h.2
    simp only [typeset, String.toList_append, ha, toList_fencedIf _ ha, toList_fencedIf _ hb,
      toList_braced ha, toList_braced hb, toList_braced (toList_fencedIf _ ha), spell_cons,
      spell_append, List.append_assoc]
    rfl
  | case9 f a b iha ihb =>
    rw [isPlain, Bool.and_eq_true] at h
    simp only [typeset, String.toList_append, iha h.1, ihb h.2, spell_cons, spell_append,
      List.append_assoc]
    rfl
  | _ => cases h

/-! ## Digits and letters -/

/-- A natural number is shown by its digits. -/
theorem exists_digits_of_isPlain {q : Fraction} (h : (exact q).isPlain = true) :
    ∃ n : Nat, q = ⟨n, 1⟩ ∧ q.text.toList = Nat.toDigits 10 n := by
  simp only [isPlain, Fraction.isWhole, Fraction.isNegative, Bool.and_eq_true, beq_iff_eq,
    Bool.not_eq_true', decide_eq_false_iff_not, Int.not_lt] at h
  obtain ⟨hden, hnum⟩ := h
  obtain ⟨n, hn⟩ := Int.eq_ofNat_of_zero_le hnum
  refine ⟨n, ?_, ?_⟩
  · cases q
    exact Fraction.mk.injEq .. ▸ ⟨hn, hden⟩
  · rw [Fraction.text, if_pos hden, hn, Token.toList_toString_natCast]

theorem isOrdinary_of_isDigit {c : Char} (h : c.isDigit = true) : Mark.isOrdinary c = true := by
  rw [Mark.isOrdinary, Char.isAlphanum, h, Bool.or_true, Bool.true_or]

theorem isOrdinary_of_isLetter {c : Char} (h : isLetter c = true) : Mark.isOrdinary c = true := by
  rw [isLetter, Bool.or_eq_true] at h
  rw [Mark.isOrdinary, Char.isAlphanum, Bool.or_eq_true, Bool.or_eq_true]
  exact h.imp .inl id

theorem isDigit_of_isLetter {c : Char} (h : isLetter c = true) : c.isDigit = false := by
  rw [isLetter, Bool.or_eq_true, decide_eq_true_eq] at h
  refine Bool.eq_false_iff.mpr fun hd => ?_
  have := Token.toNat_of_isDigit hd
  rcases h with h | h
  · rcases Token.toNat_of_isAlpha h with h | h <;> omega
  · omega

/-- Growing brackets are legible. -/
theorem isLegible_inFence {needed : Bool} {ms : List Mark} (h : ∀ m ∈ ms, m.isLegible = true) :
    ∀ m ∈ inFence needed ms, m.isLegible = true := by
  cases needed with
  | false => exact h
  | true =>
    refine List.forall_mem_cons.mpr ⟨rfl, List.forall_mem_append.mpr ⟨h, ?_⟩⟩
    exact List.forall_mem_cons.mpr ⟨rfl, fun _ hm => absurd hm List.not_mem_nil⟩

/-- Braces are legible. -/
theorem isLegible_inBraces {ms : List Mark} (h : ∀ m ∈ ms, m.isLegible = true) :
    ∀ m ∈ inBraces ms, m.isLegible = true := by
  refine List.forall_mem_cons.mpr ⟨rfl, List.forall_mem_append.mpr ⟨h, ?_⟩⟩
  exact List.forall_mem_cons.mpr ⟨rfl, fun _ hm => absurd hm List.not_mem_nil⟩

/-- All marks of a formula can be told apart. -/
theorem isLegible_formula {e : Expr} (h : e.isPlain = true) :
    ∀ m ∈ formula e, m.isLegible = true := by
  fun_induction formula e with
  | case1 q =>
    obtain ⟨n, -, hdigits⟩ := exists_digits_of_isPlain h
    rw [hdigits, List.forall_mem_map]
    exact fun c hc =>
      isOrdinary_of_isDigit (Nat.isDigit_of_mem_toDigits (by decide) (by decide) hc)
  | case2 name =>
    obtain ⟨c, hc, hletter, -⟩ := exists_of_isPlainName h
    rw [hc, List.forall_mem_map]
    exact List.forall_mem_singleton.mpr (isOrdinary_of_isLetter hletter)
  | case3 a ih => exact List.forall_mem_cons.mpr ⟨rfl, isLegible_inFence (ih h)⟩
  | case4 a b iha ihb =>
    rw [isPlain, Bool.and_eq_true] at h
    exact List.forall_mem_cons.mpr ⟨rfl, List.forall_mem_append.mpr
      ⟨isLegible_inBraces (iha h.1), isLegible_inBraces (ihb h.2)⟩⟩
  | case5 a b iha ihb =>
    rw [isPlain, Bool.and_eq_true] at h
    exact List.forall_mem_append.mpr ⟨isLegible_inBraces (isLegible_inFence (iha h.1)),
      List.forall_mem_cons.mpr ⟨rfl, isLegible_inBraces (ihb h.2)⟩⟩
  | case6 a b iha ihb =>
    rw [isPlain, Bool.and_eq_true] at h
    exact List.forall_mem_append.mpr ⟨isLegible_inFence (iha h.1),
      List.forall_mem_cons.mpr ⟨rfl, isLegible_inFence (ihb h.2)⟩⟩
  | case7 a b iha ihb | case8 a b iha ihb =>
    rw [isPlain, Bool.and_eq_true] at h
    exact List.forall_mem_append.mpr ⟨iha h.1,
      List.forall_mem_cons.mpr ⟨rfl, isLegible_inFence (ihb h.2)⟩⟩
  | case9 f a b iha ihb =>
    rw [isPlain, Bool.and_eq_true] at h
    exact List.forall_mem_append.mpr ⟨iha h.1, List.forall_mem_cons.mpr ⟨rfl, ihb h.2⟩⟩
  | _ => cases h

/-- Expressions with the same display form have the same marks. -/
theorem formula_eq_of_typeset {a b : Expr} (ha : a.isPlain = true) (hb : b.isPlain = true)
    (h : typeset a = typeset b) : formula a = formula b := by
  refine spell_injective (isLegible_formula ha) (isLegible_formula hb) ?_
  rw [← toList_typeset ha, ← toList_typeset hb, h]

/-! ## Brackets of formulas -/

/-- Plain characters leave no bracket open. -/
theorem balanced_plain (s : List Char) : Balanced (s.map .plain) := by
  induction s with
  | nil => exact .nil
  | cons c s ih => exact (Balanced.single rfl).append ih

/-- Growing brackets are closed again. -/
theorem balanced_inFence {ms : List Mark} (h : Balanced ms) (needed : Bool) :
    Balanced (inFence needed ms) := by
  cases needed with
  | false => exact h
  | true => exact h.enclosed rfl rfl

/-- In a formula every bracket is closed. -/
theorem balanced_formula (e : Expr) : Balanced (formula e) := by
  fun_induction formula e with
  | case1 | case2 => exact balanced_plain _
  | case3 a ih => exact (Balanced.single rfl).append (balanced_inFence ih _)
  | case4 a b iha ihb =>
    exact (Balanced.single rfl).append ((iha.enclosed rfl rfl).append (ihb.enclosed rfl rfl))
  | case5 a b iha ihb =>
    exact ((balanced_inFence iha _).enclosed rfl rfl).append
      ((Balanced.single rfl).append (ihb.enclosed rfl rfl))
  | case6 a b iha ihb =>
    exact (balanced_inFence iha _).append ((Balanced.single rfl).append (balanced_inFence ihb _))
  | case7 a b iha ihb | case8 a b iha ihb =>
    exact iha.append ((Balanced.single rfl).append (balanced_inFence ihb _))
  | case9 f a b iha ihb => exact iha.append ((Balanced.single rfl).append ihb)
  | _ => exact .nil

/-! ## The signs that a formula shows -/

/-- How tightly the root binds: comparisons 0, sums 1, products 2, and 3 what shows no sign. -/
def rank : Expr → Nat
  | compare .. => 0
  | binary .add _ _ | binary .subtract _ _ => 1
  | binary .multiply _ _ => 2
  | _ => 3

/-- A comparison. -/
def isComparison : Expr → Bool
  | compare .. => true
  | _ => false

/-- No comparison is the second side of a comparison, or the first operand of a sum or difference:
in these places the display form has no brackets around it. -/
def isParted : Expr → Bool
  | neg a => isParted a
  | binary f a b => (1 < f.level || !isComparison a) && isParted a && isParted b
  | compare _ a b => !isComparison b && isParted a && isParted b
  | _ => true

theorem rank_le (e : Expr) : rank e ≤ 3 := by
  unfold rank
  split <;> decide

/-- What needs no brackets in a place shows no sign that is too loose for it. -/
theorem le_rank {k : Nat} {e : Expr} (hk : k ≤ 3) (h : k ≤ e.level) : k ≤ rank e := by
  unfold rank
  split
  · exact h
  · exact h
  · exact h
  · exact h
  · exact hk

/-- Growing brackets end an operand if the marks in them do. -/
theorem endsOperand_inFence {ms : List Mark} (h : endsOperand ms = true) (needed : Bool) :
    endsOperand (inFence needed ms) = true := by
  cases needed with
  | false => exact h
  | true => exact endsOperand_append (.fence :: ms) (List.cons_ne_nil _ _)

theorem ne_nil_of_endsOperand {ms : List Mark} (h : endsOperand ms = true) : ms ≠ [] := by
  rintro rfl
  cases h

/-- A formula can end an operand. -/
theorem endsOperand_formula {e : Expr} (h : e.isPlain = true) : endsOperand (formula e) = true := by
  have hbehind (as : List Mark) {bs : List Mark} {m : Mark} (hbs : endsOperand bs = true) :
      endsOperand (as ++ m :: bs) = true := by
    rw [endsOperand_append _ (List.cons_ne_nil m bs), ← List.singleton_append,
      endsOperand_append _ (ne_nil_of_endsOperand hbs), hbs]
  have hbraces (ms : List Mark) : endsOperand (inBraces ms) = true :=
    endsOperand_append (.opening :: ms) (List.cons_ne_nil _ _)
  have hchars {s : List Char} (hs : s ≠ []) : endsOperand (s.map .plain) = true := by
    rw [endsOperand, List.getLast?_map, List.getLast?_eq_some_getLast hs]
    rfl
  fun_induction formula e with
  | case1 q =>
    obtain ⟨n, -, hdigits⟩ := exists_digits_of_isPlain h
    exact hchars (hdigits ▸ Nat.toDigits_ne_nil)
  | case2 name =>
    obtain ⟨c, hc, -⟩ := exists_of_isPlainName h
    exact hchars (hc ▸ List.cons_ne_nil _ _)
  | case3 a ih => exact hbehind [] (endsOperand_inFence (ih h) _)
  | case4 a b iha ihb =>
    exact hbehind [] ((endsOperand_append _ (List.cons_ne_nil _ _)).trans (hbraces _))
  | case5 a b iha ihb => exact hbehind _ (hbraces _)
  | case6 a b iha ihb | case7 a b iha ihb | case8 a b iha ihb =>
    rw [isPlain, Bool.and_eq_true] at h
    exact hbehind _ (endsOperand_inFence (ihb h.2) _)
  | case9 f a b iha ihb =>
    rw [isPlain, Bool.and_eq_true] at h
    exact hbehind _ (ihb h.2)
  | _ => cases h

/-- A formula of a comparison, sum or product shows the sign of the root. -/
theorem exists_shows {e : Expr} (h : e.isPlain = true) (hrank : rank e < 3) :
    ∃ m, Shows (formula e) m ∧ m.rank = rank e := by
  have hsign {a : Expr} {ms bs : List Mark} (ha : a.isPlain = true) (m : Mark)
      (hms : ms = formula a ++ m :: bs) : Shows ms m :=
    ⟨formula a, bs, hms, (balanced_formula a).even, endsOperand_formula ha⟩
  cases e with
  | compare f a b =>
    rw [isPlain, Bool.and_eq_true] at h
    exact ⟨.relation f, hsign h.1 _ rfl, rfl⟩
  | binary f a b =>
    rw [isPlain, Bool.and_eq_true] at h
    cases f with
    | add => exact ⟨.plus, hsign h.1 _ rfl, rfl⟩
    | subtract => exact ⟨.minus, hsign h.1 _ rfl, rfl⟩
    | multiply =>
      exact ⟨.times, ⟨_, _, rfl, (balanced_inFence (balanced_formula a) _).even,
        endsOperand_inFence (endsOperand_formula h.1) _⟩, rfl⟩
    | divide | power => exact absurd hrank (Nat.lt_irrefl 3)
  | _ => exact absurd hrank (Nat.lt_irrefl 3)

/-- Braces show no sign. -/
theorem tight_inBraces {n : Nat} (e : Expr) : Tight n (inBraces (formula e)) :=
  tight_enclosed rfl (balanced_formula e)

/-- What is put into brackets where it is looser than its place shows nothing that is. -/
theorem tight_inFence {k : Nat} {e : Expr} (h : Tight (rank e) (formula e)) (hk : k ≤ 3) :
    Tight k (inFence (e.level < k) (formula e)) := by
  by_cases hlevel : e.level < k
  · rw [decide_eq_true hlevel]
    exact tight_enclosed rfl (balanced_formula e)
  · rw [decide_eq_false hlevel]
    exact h.mono (le_rank hk (Nat.le_of_not_lt hlevel))

/-- Plain characters show no sign. -/
theorem tight_plain (n : Nat) (hn : n ≤ 3) (s : List Char) : Tight n (s.map .plain) := by
  rintro m ⟨as, bs, h, -⟩
  have hm : m ∈ s.map Mark.plain := h ▸ List.mem_append_right as List.mem_cons_self
  obtain ⟨c, -, rfl⟩ := List.mem_map.mp hm
  exact hn

theorem one_le_rank {e : Expr} (h : isComparison e = false) : 1 ≤ rank e := by
  unfold rank
  split
  · cases h
  all_goals decide

/-- A formula shows no sign that is looser than the root. -/
theorem tight_formula {e : Expr} (h : e.isParted = true) : Tight (rank e) (formula e) := by
  fun_induction formula e with
  | case1 q | case2 name => exact tight_plain 3 (Nat.le_refl 3) _
  | case3 a ih => exact (tight_inFence (ih h) (Nat.le_refl 3)).cons ⟨rfl, rfl⟩
  | case4 a b iha ihb =>
    refine .cons ⟨rfl, rfl⟩ ((tight_inBraces a).append ?_ (tight_inBraces b) fun _ m hm => ?_)
    · exact ((balanced_formula a).enclosed rfl rfl).even
    · cases hm
      exact Nat.le_refl 3
  | case5 a b iha ihb =>
    have ha := balanced_inFence (balanced_formula a) (a.level < 5)
    exact (tight_enclosed rfl ha).join (ha.enclosed rfl rfl).even (tight_inBraces b) ⟨rfl, rfl⟩
      (Nat.le_refl 3)
  | case6 a b iha ihb =>
    simp only [isParted, Bool.and_eq_true] at h
    have hb := tight_inFence (ihb h.2) (Nat.le_refl 3)
    exact (tight_inFence (iha h.1.2) (rank_le _)).join
      (balanced_inFence (balanced_formula a) _).even (hb.mono (rank_le _)) ⟨rfl, rfl⟩
      (Nat.le_refl 2)
  | case7 a b iha ihb | case8 a b iha ihb =>
    simp only [isParted, Operation.level, Bool.and_eq_true, Bool.not_eq_true', Nat.lt_irrefl,
      decide_false, Bool.false_or] at h
    have hb := tight_inFence (ihb h.2) (k := 2) (by decide)
    exact ((iha h.1.2).mono (one_le_rank h.1.1)).join (balanced_formula a).even
      (hb.mono (by decide)) ⟨rfl, rfl⟩ (Nat.le_refl 1)
  -- nothing is looser than a comparison
  | case9 f a b iha ihb => exact fun _ _ => Nat.zero_le _
  | _ => exact tight_nil

/-! ## Formulas tell expressions -/

/-- Where two formulas are the same, the first root is no tighter. -/
theorem rank_le_of_formula {a b : Expr} (hparted : a.isParted = true) (hb : b.isPlain = true)
    (h : formula a = formula b) : rank a ≤ rank b := by
  by_cases hrank : rank b < 3
  · obtain ⟨m, hm, hmb⟩ := exists_shows hb hrank
    rw [← hmb]
    exact tight_formula hparted m (h ▸ hm)
  · exact Nat.le_trans (rank_le a) (Nat.le_of_not_lt hrank)

/-- The marks that a formula without signs between operands can start with, for each root. -/
def leads : Expr → Mark → Bool
  | exact _, .plain c => c.isDigit
  | symbol _, .plain c => !c.isDigit
  | neg _, .minus => true
  | binary .divide _ _, .fraction => true
  | binary .power _ _, .opening => true
  | _, _ => false

/-- The first mark of a formula is one that its root can start with. -/
theorem leads_of_formula {e : Expr} {m : Mark} {ms : List Mark} (h : e.isPlain = true)
    (hrank : rank e = 3) (hm : formula e = m :: ms) : leads e m = true := by
  cases e with
  | exact q =>
    obtain ⟨n, -, hdigits⟩ := exists_digits_of_isPlain h
    rw [formula, hdigits] at hm
    obtain ⟨c, cs, hc, rfl, -⟩ := List.map_eq_cons_iff.mp hm
    exact Nat.isDigit_of_mem_toDigits (by decide) (by decide) (hc ▸ List.mem_cons_self)
  | symbol name =>
    obtain ⟨c, hc, hletter, -⟩ := exists_of_isPlainName h
    rw [formula, hc] at hm
    cases hm
    exact Bool.not_eq_true' _ ▸ isDigit_of_isLetter hletter
  | neg a =>
    cases hm
    rfl
  | binary f a b =>
    cases f with
    | divide | power =>
      cases hm
      rfl
    | _ => cases hrank
  | compare => cases hrank
  | real | boolean | call | list => cases h

section

variable {e : Expr} {c : Char}

/-- Only a number starts with a digit. -/
theorem exists_exact_of_leads (h : leads e (.plain c) = true) (hc : c.isDigit = true) :
    ∃ q, e = exact q := by
  cases e with
  | exact q => exact ⟨q, rfl⟩
  | symbol name =>
    rw [leads, hc] at h
    cases h
  | binary g => cases g <;> cases h
  | _ => cases h

/-- Only a symbol starts with another character. -/
theorem exists_symbol_of_leads (h : leads e (.plain c) = true) (hc : c.isDigit = false) :
    ∃ name, e = symbol name := by
  cases e with
  | symbol name => exact ⟨name, rfl⟩
  | exact q =>
    rw [leads, hc] at h
    cases h
  | binary g => cases g <;> cases h
  | _ => cases h

/-- Only a negation starts with a minus sign. -/
theorem exists_neg_of_leads (h : leads e .minus = true) : ∃ a, e = neg a := by
  cases e with
  | neg a => exact ⟨a, rfl⟩
  | binary g => cases g <;> cases h
  | _ => cases h

/-- Only a quotient starts with a fraction. -/
theorem exists_divide_of_leads (h : leads e .fraction = true) : ∃ a b, e = binary .divide a b := by
  cases e with
  | binary g a b =>
    cases g with
    | divide => exact ⟨a, b, rfl⟩
    | _ => cases h
  | _ => cases h

/-- Only a power starts with a brace. -/
theorem exists_power_of_leads (h : leads e .opening = true) : ∃ a b, e = binary .power a b := by
  cases e with
  | binary g a b =>
    cases g with
    | power => exact ⟨a, b, rfl⟩
    | _ => cases h
  | _ => cases h

/-- Only a comparison binds as loosely as one. -/
theorem exists_compare_of_rank (h : rank e = 0) : ∃ f a b, e = compare f a b := by
  cases e with
  | compare f a b => exact ⟨f, a, b, rfl⟩
  | binary g => cases g <;> cases h
  | _ => cases h

/-- Only sums and differences bind as they do. -/
theorem exists_sum_of_rank (h : rank e = 1) :
    ∃ a b, e = binary .add a b ∨ e = binary .subtract a b := by
  cases e with
  | binary g a b =>
    cases g with
    | add => exact ⟨a, b, .inl rfl⟩
    | subtract => exact ⟨a, b, .inr rfl⟩
    | _ => cases h
  | _ => cases h

/-- Only a product binds as one. -/
theorem exists_multiply_of_rank (h : rank e = 2) : ∃ a b, e = binary .multiply a b := by
  cases e with
  | binary g a b =>
    cases g with
    | multiply => exact ⟨a, b, rfl⟩
    | _ => cases h
  | _ => cases h

end

/-- No formula is all in one pair of growing brackets. -/
theorem formula_ne_fenced {e : Expr} {ms : List Mark} (h : e.isPlain = true) (hms : Balanced ms) :
    formula e ≠ .fence :: (ms ++ [.fenceEnd]) := by
  intro hfenced
  by_cases hrank : rank e < 3
  · obtain ⟨m, hm, hme⟩ := exists_shows h hrank
    have htight : 3 ≤ m.rank := tight_enclosed rfl hms m (hfenced ▸ hm)
    omega
  · have hlead := leads_of_formula h (Nat.le_antisymm (rank_le e) (Nat.le_of_not_lt hrank)) hfenced
    cases e with
    | binary f a b => cases f <;> cases hlead
    | _ => cases hlead

/-- The brackets of an operand tell whether it needs them. -/
theorem formula_eq_of_inFence {k : Nat} {a b : Expr} (ha : a.isPlain = true)
    (hb : b.isPlain = true)
    (h : inFence (a.level < k) (formula a) = inFence (b.level < k) (formula b)) :
    formula a = formula b := by
  by_cases hka : a.level < k <;> by_cases hkb : b.level < k
  · rw [decide_eq_true hka, decide_eq_true hkb] at h
    exact List.append_cancel_right (List.cons.inj h).2
  · rw [decide_eq_true hka, decide_eq_false hkb] at h
    exact absurd h.symm (formula_ne_fenced hb (balanced_formula a))
  · rw [decide_eq_false hka, decide_eq_true hkb] at h
    exact absurd h (formula_ne_fenced ha (balanced_formula b))
  · rw [decide_eq_false hka, decide_eq_false hkb] at h
    exact h

/-- Braces are closed in one place. -/
theorem inBraces_append_inj {as bs us vs : List Mark} (has : Balanced as) (hbs : Balanced bs)
    (h : inBraces as ++ us = inBraces bs ++ vs) : as = bs ∧ us = vs := by
  simp only [inBraces, List.cons_append, List.append_assoc, List.cons.injEq, true_and] at h
  obtain ⟨hsame, -, hbehind⟩ := has.cut_unique hbs rfl rfl h
  exact ⟨hsame, hbehind⟩

/-- Braces around different marks are different. -/
theorem inBraces_inj {as bs : List Mark} (h : inBraces as = inBraces bs) : as = bs :=
  List.append_cancel_right (List.cons.inj h).2

/-- Equal formulas have roots that bind alike. -/
theorem rank_eq_of_formula {a b : Expr} (ha : a.isPlain = true) (hb : b.isPlain = true)
    (ha' : a.isParted = true) (hb' : b.isParted = true) (h : formula a = formula b) :
    rank b = rank a :=
  Nat.le_antisymm (rank_le_of_formula hb' ha h.symm) (rank_le_of_formula ha' hb h)

section

variable {a a' b b' : Expr} {m n : Mark} (ha : a.isPlain = true) (hb : b.isPlain = true)

include ha hb

/-- Two comparisons with the same formula have the same sign, and sides with the same formulas. -/
theorem sides_eq {f g : Relation} (hpa : a'.isParted = true) (hpb : b'.isParted = true)
    (hca : a'.isComparison = false) (hcb : b'.isComparison = false)
    (h : formula a ++ .relation f :: formula a' = formula b ++ .relation g :: formula b') :
    formula a = formula b ∧ f = g ∧ formula a' = formula b' := by
  obtain ⟨hleft, hsign, hright⟩ := cut_unique (a := .relation f) (c := .relation g)
    (balanced_formula a).even (balanced_formula b).even (endsOperand_formula ha)
    (endsOperand_formula hb) ((tight_formula hpa).mono (one_le_rank hca))
    ((tight_formula hpb).mono (one_le_rank hcb)) rfl (Nat.zero_lt_succ 2) h
  exact ⟨hleft, Mark.relation.inj hsign, hright⟩

/-- Two sums with the same formula have the same sign, and operands with the same formulas. -/
theorem summands_eq (ha' : a'.isPlain = true) (hb' : b'.isPlain = true) (hpa : a'.isParted = true)
    (hpb : b'.isParted = true) (hm : m.rank = 1) (hn : n.rank = 1)
    (h : formula a ++ m :: inFence (a'.level < 2) (formula a') =
      formula b ++ n :: inFence (b'.level < 2) (formula b')) :
    formula a = formula b ∧ m = n ∧ formula a' = formula b' := by
  have htight {e : Expr} (he : e.isParted = true) :
      Tight (m.rank + 1) (inFence (e.level < 2) (formula e)) := by
    rw [hm]
    exact tight_inFence (tight_formula he) (by decide)
  obtain ⟨hleft, hsign, hright⟩ := cut_unique (balanced_formula a).even (balanced_formula b).even
    (endsOperand_formula ha) (endsOperand_formula hb) (htight hpa) (htight hpb) (hn.trans hm.symm)
    (by omega) h
  exact ⟨hleft, hsign, formula_eq_of_inFence ha' hb' hright⟩

/-- Two products with the same formula have factors with the same formulas. -/
theorem factors_eq (ha' : a'.isPlain = true) (hb' : b'.isPlain = true) (hpa : a'.isParted = true)
    (hpb : b'.isParted = true)
    (h : inFence (a.level < 2) (formula a) ++ .times :: inFence (a'.level < 3) (formula a') =
      inFence (b.level < 2) (formula b) ++ .times :: inFence (b'.level < 3) (formula b')) :
    formula a = formula b ∧ formula a' = formula b' := by
  obtain ⟨hleft, -, hright⟩ := cut_unique (a := .times)
    (balanced_inFence (balanced_formula a) _).even (balanced_inFence (balanced_formula b) _).even
    (endsOperand_inFence (endsOperand_formula ha) _)
    (endsOperand_inFence (endsOperand_formula hb) _)
    (tight_inFence (tight_formula hpa) (Nat.le_refl 3))
    (tight_inFence (tight_formula hpb) (Nat.le_refl 3)) rfl (by decide) h
  exact ⟨formula_eq_of_inFence ha hb hleft, formula_eq_of_inFence ha' hb' hright⟩

end

/-- Digits tell the number. -/
theorem exact_eq_of_formula {q : Fraction} {b : Expr} (hq : (exact q).isPlain = true)
    (hb : b.isPlain = true) (hrank : rank b = 3) (h : formula (exact q) = formula b) :
    exact q = b := by
  obtain ⟨n, rfl, hdigits⟩ := exists_digits_of_isPlain hq
  obtain ⟨c, cs, hcs⟩ := List.exists_cons_of_ne_nil (Nat.toDigits_ne_nil (n := n) (b := 10))
  have hc : c.isDigit = true :=
    Nat.isDigit_of_mem_toDigits (by decide) (by decide) (hcs ▸ List.mem_cons_self)
  rw [formula, hdigits] at h
  obtain ⟨r, rfl⟩ :=
    exists_exact_of_leads (leads_of_formula hb hrank (h.symm.trans (congrArg _ hcs))) hc
  obtain ⟨k, rfl, hdigits'⟩ := exists_digits_of_isPlain hb
  have hsame : Nat.toDigits 10 n = Nat.toDigits 10 k := by
    rw [← hdigits', ← spell_map_plain (Nat.toDigits 10 n), h]
    exact spell_map_plain _
  rw [← Nat.ofDigitChars_ten_toDigits (n := n), hsame, Nat.ofDigitChars_ten_toDigits]

/-- A letter tells the name. -/
theorem symbol_eq_of_formula {name : String} {b : Expr} (hname : isPlainName name = true)
    (hb : b.isPlain = true) (hrank : rank b = 3) (h : formula (symbol name) = formula b) :
    symbol name = b := by
  obtain ⟨c, hc, hletter, -⟩ := exists_of_isPlainName hname
  have hlead : formula b = [.plain c] := by rw [← h, formula, hc]; rfl
  obtain ⟨other, rfl⟩ :=
    exists_symbol_of_leads (leads_of_formula hb hrank hlead) (isDigit_of_isLetter hletter)
  have hsame : name.toList = other.toList := by
    rw [← spell_map_plain name.toList, ← spell_map_plain other.toList]
    exact congrArg spell h
  exact congrArg symbol (String.toList_inj.mp hsame)

/-- The formula tells the expression, if no comparison lacks its brackets. -/
theorem formula_injective {a b : Expr} (ha : a.isPlain = true) (hb : b.isPlain = true)
    (hpa : a.isParted = true) (hpb : b.isParted = true) (h : formula a = formula b) : a = b := by
  -- the root of `b` is found first: by its rank where a sign is shown, else by the first mark
  fun_induction formula a generalizing b with
  | case1 q => exact exact_eq_of_formula ha hb (rank_eq_of_formula ha hb hpa hpb h) h
  | case2 name => exact symbol_eq_of_formula ha hb (rank_eq_of_formula ha hb hpa hpb h) h
  | case3 a ih =>
    have hlead := leads_of_formula hb (rank_eq_of_formula ha hb hpa hpb h) h.symm
    obtain ⟨c, rfl⟩ := exists_neg_of_leads hlead
    have hsame : formula a = formula c := formula_eq_of_inFence ha hb (List.cons.inj h).2
    rw [ih (b := c) ha hb hpa hpb hsame]
  | case4 a a' iha iha' =>
    have hlead := leads_of_formula hb (rank_eq_of_formula ha hb hpa hpb h) h.symm
    obtain ⟨c, c', rfl⟩ := exists_divide_of_leads hlead
    simp only [isPlain, isParted, Bool.and_eq_true] at ha hb hpa hpb
    obtain ⟨hleft, hright⟩ :=
      inBraces_append_inj (balanced_formula a) (balanced_formula c) (List.cons.inj h).2
    rw [iha ha.1 hb.1 hpa.1.2 hpb.1.2 hleft,
      iha' ha.2 hb.2 hpa.2 hpb.2 (inBraces_inj hright)]
  | case5 a a' iha iha' =>
    have hlead := leads_of_formula hb (rank_eq_of_formula ha hb hpa hpb h) h.symm
    obtain ⟨c, c', rfl⟩ := exists_power_of_leads hlead
    simp only [isPlain, isParted, Bool.and_eq_true] at ha hb hpa hpb
    obtain ⟨hleft, hright⟩ := inBraces_append_inj (balanced_inFence (balanced_formula a) _)
      (balanced_inFence (balanced_formula c) _) h
    rw [iha ha.1 hb.1 hpa.1.2 hpb.1.2 (formula_eq_of_inFence ha.1 hb.1 hleft),
      iha' ha.2 hb.2 hpa.2 hpb.2 (inBraces_inj (List.cons.inj hright).2)]
  | case6 a a' iha iha' =>
    obtain ⟨c, c', rfl⟩ := exists_multiply_of_rank (rank_eq_of_formula ha hb hpa hpb h)
    simp only [isPlain, isParted, Bool.and_eq_true] at ha hb hpa hpb
    obtain ⟨hleft, hright⟩ := factors_eq ha.1 hb.1 ha.2 hb.2 hpa.2 hpb.2 h
    rw [iha ha.1 hb.1 hpa.1.2 hpb.1.2 hleft, iha' ha.2 hb.2 hpa.2 hpb.2 hright]
  | case7 a a' iha iha' | case8 a a' iha iha' =>
    obtain ⟨c, c', rfl | rfl⟩ := exists_sum_of_rank (rank_eq_of_formula ha hb hpa hpb h)
    all_goals
      simp only [isPlain, isParted, Bool.and_eq_true] at ha hb hpa hpb
      obtain ⟨hleft, hsign, hright⟩ := summands_eq ha.1 hb.1 ha.2 hb.2 hpa.2 hpb.2 rfl rfl h
      -- a sum is no difference
      cases hsign <;>
        rw [iha ha.1 hb.1 hpa.1.2 hpb.1.2 hleft, iha' ha.2 hb.2 hpa.2 hpb.2 hright]
  | case9 f a a' iha iha' =>
    obtain ⟨g, c, c', rfl⟩ := exists_compare_of_rank (rank_eq_of_formula ha hb hpa hpb h)
    simp only [isPlain, isParted, Bool.and_eq_true, Bool.not_eq_true'] at ha hb hpa hpb
    obtain ⟨hleft, rfl, hright⟩ := sides_eq ha.1 hb.1 hpa.2 hpb.2 hpa.1.1 hpb.1.1 h
    rw [iha ha.1 hb.1 hpa.1.2 hpb.1.2 hleft, iha' ha.2 hb.2 hpa.2 hpb.2 hright]
  | _ => cases ha

end Reckoner.Expr
