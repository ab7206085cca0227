import Reckoner.Engine.Basic
import Reckoner.Proofs.Expr.Steadiness
import Reckoner.Proofs.Grammar.Legibility
import Reckoner.Proofs.Grammar.Placement
import Reckoner.Proofs.Grammar.RoundTrip

/-!
# Canonical texts are read exactly

The canonical text of a tree is read as the regrouped tree where neither its brackets nor the
regrouped tree are too deep, and is refused otherwise. So it is a canonical form itself exactly
where both limits are kept and no sign is hidden.
-/

namespace Reckoner

open Reckoner.Expr Token Grammar

namespace Expr

/-- Brackets take one level more. -/
def bracketed (needed : Bool) (k : Nat) : Nat := if needed then k + 1 else k

mutual

/-- The number of levels that the brackets, signs and powers of the canonical text take. -/
def nesting : Expr → Nat
  | exact _ | real _ | symbol _ | boolean _ => 0
  | neg a => bracketed (a.level < 3) (nesting a) + 1
  | binary .add a (neg b) =>
    max (bracketed (Operation.add.bracketsLeft a) (nesting a))
      (bracketed (Operation.subtract.bracketsRight b) (nesting b))
  | binary .power a b =>
    max (bracketed (Operation.power.bracketsLeft a) (nesting a))
      (bracketed (Operation.power.bracketsRight b) (nesting b) + 1)
  | binary f a b =>
    max (bracketed (f.bracketsLeft a) (nesting a)) (bracketed (f.bracketsRight b) (nesting b))
  | compare _ a b => max (bracketed (a.level < 1) (nesting a)) (bracketed (b.level < 1) (nesting b))
  | call _ as | list as => nestingAll as

/-- The number of levels that the texts take as arguments. -/
def nestingAll : List Expr → Nat
  | [] => 0
  | a :: as => max (nesting a + 1) (nestingAll as)

end

/-- Only a sum whose second operand has a minus sign takes other levels, as a difference. -/
theorem nesting_binary {f : Operation} {b : Expr} (a : Expr) (h : f = .add → b.isNegative = false) :
    nesting (binary f a b) = max (bracketed (f.bracketsLeft a) (nesting a))
      (bracketed (f.bracketsRight b) (nesting b) + if f = .power then 1 else 0) := by
  cases f with
  | add =>
    cases b with
    | neg => cases h rfl
    | _ => rfl
  | _ => rfl

/-- What has a minus sign binds like a sign. -/
theorem level_of_isNegative {e : Expr} (h : e.isNegative = true) : e.level = 3 := by
  cases e with
  | neg => rfl
  | exact q => exact if_pos (of_decide_eq_true h)
  | real x => exact if_pos (of_decide_eq_true h)
  | _ => cases h

end Expr

namespace Operation

/-- The place of the first operand. -/
def placeLeft : Operation → Nat
  | add | subtract => 1
  | multiply | divide => 2
  | power => 5

/-- The place of the second operand. -/
def placeRight : Operation → Nat
  | add => 1
  | subtract | multiply => 2
  | divide | power => 4

/-- The first operand stands in brackets where it binds less tightly than its place demands. -/
theorem bracketsLeft_iff {f : Operation} {a : Expr} :
    f.bracketsLeft a = true ↔ a.level < f.placeLeft := by
  cases f with
  | power =>
    have hnegative (hn : a.isNegative = true) : a.level < 5 := by
      rw [level_of_isNegative hn]
      decide
    simp only [bracketsLeft, placeLeft, Bool.or_eq_true, decide_eq_true_eq]
    exact ⟨fun h => h.elim Nat.lt_succ_of_le hnegative, fun h => .inl (Nat.le_of_lt_succ h)⟩
  | _ => exact decide_eq_true_iff

end Operation

namespace Grammar

variable {a b c e : Expr} {ts ts' : List Token} {i j k l m n : Nat} {s s' : List Char}

/-- The text is read as the tree in a place of the level, and `k` levels are needed. -/
def Spelled (k n : Nat) (e : Expr) (s : List Char) : Prop := ∃ ts, Written s ts ∧ Stands k e ts n

/-- A sign between two texts, where the tokens stand on both sides of it. -/
theorem Spelled.between {t : Token} (ht : t.isMark = true) (ha : Spelled k m a s)
    (hb : Spelled l n b s')
    (h : ∀ ts ts', Stands k a ts m → Stands l b ts' n → Stands j e (ts ++ t :: ts') i) :
    Spelled j i e (s ++ (t.text.toList ++ s')) := by
  obtain ⟨ts, hw, hsa⟩ := ha
  obtain ⟨ts', hw', hsb⟩ := hb
  exact ⟨ts ++ t :: ts', hw.between ht hw', h ts ts' hsa hsb⟩

/-- A text is read with and without brackets, but for brackets around a chain in a place of its
own level. -/
theorem Spelled.grouped {t : String} {needed : Bool} (h : Spelled k e.level e t.toList)
    (hfree : needed = false → n ≤ e.level)
    (hneeded : needed = true → ∀ j, n ≤ j → j ≤ 2 → e.level ≠ j) :
    Spelled (bracketed needed k) n e (grouped needed t).toList := by
  obtain ⟨ts, hw, hs⟩ := h
  cases needed with
  | false => exact ⟨ts, hw, hs.loosen (hfree rfl) fun j _ hj _ => (Nat.ne_of_lt hj).symm⟩
  | true =>
    have hinner := hs.loosen (Nat.zero_le _) fun j _ hj _ => (Nat.ne_of_lt hj).symm
    exact ⟨_, hw.grouped, hinner.group (hneeded rfl)⟩

/-- The canonical text is read as the regrouped tree in a place of the level of the tree. -/
def Clear (e : Expr) : Prop := Spelled e.nesting e.level e.regroup (e.print none).toList

/-- An operand is read where its text stands in brackets as far as it has to. -/
theorem Clear.grouped {needed : Bool} (ha : a.Legible) (h : Clear a)
    (hfree : needed = false → n ≤ a.level)
    (hneeded : needed = true → ∀ j, n ≤ j → j ≤ 2 → a.level ≠ j) :
    Spelled (bracketed needed a.nesting) n a.regroup (grouped needed (a.print none)).toList := by
  rw [Clear, ← ha.alike.level] at h
  rw [← ha.alike.level] at hfree hneeded
  exact h.grouped hfree hneeded

/-- The text of a first operand, with its brackets, fits the place on the left. -/
theorem Clear.first (hla : a.Legible) (ha : Clear a) (f : Operation) :
    Spelled (bracketed (f.bracketsLeft a) a.nesting) f.placeLeft a.regroup
      (Expr.grouped (f.bracketsLeft a) (a.print none)).toList := by
  refine ha.grouped hla (fun h => ?_) fun h j hj _ => ?_
  · have htight := mt Operation.bracketsLeft_iff.mpr (Bool.eq_false_iff.mp h)
    exact Nat.le_of_not_lt htight
  · have hloose := Operation.bracketsLeft_iff.mp h
    omega

/-- The text of a second operand, with its brackets, fits the place on the right. -/
theorem Clear.second (hlb : b.Legible) (hb : Clear b) (f : Operation) :
    Spelled (bracketed (f.bracketsRight b) b.nesting) f.placeRight b.regroup
      (Expr.grouped (f.bracketsRight b) (b.print none)).toList := by
  have hthree (h : b.isNegative = false) : b.level ≠ 3 := level_ne_three h
  have hnegative (h : b.isNegative = true) : b.level = 3 := level_of_isNegative h
  refine hb.grouped hlb (fun h => ?_) fun h j hj hj' => ?_
  · cases f <;> simp only [Operation.bracketsRight, Operation.placeRight, Bool.or_eq_false_iff,
      decide_eq_false_iff_not] at h ⊢ <;> grind
  · cases f <;> simp only [Operation.bracketsRight, Operation.placeRight, Bool.or_eq_true,
      decide_eq_true_eq] at h hj <;> grind

/-- An operation reads its operands off their texts. -/
theorem Clear.binary {f : Operation} (hla : a.Legible) (hlb : b.Legible) (ha : Clear a)
    (hb : Clear b) (h : f = .add → b.isNegative = false) : Clear (.binary f a b) := by
  have hfirst := ha.first hla f
  have hsecond := hb.second hlb f
  rw [Clear, print_binary hlb, behind_eq h, String.toList_append, String.toList_append,
    nesting_binary a h, regroup]
  cases f with
  | add =>
    rw [fuse_eq_join rfl (hlb.alike.sign.trans (h rfl))]
    exact hfirst.between (t := .operation .add) rfl hsecond fun _ _ => Stands.add
  | subtract =>
    exact hfirst.between (t := .operation .subtract) rfl hsecond fun _ _ => Stands.subtract
  | multiply =>
    exact hfirst.between (t := .operation .multiply) rfl hsecond fun _ _ => Stands.multiply
  | divide =>
    exact hfirst.between (t := .operation .divide) rfl hsecond fun _ _ => Stands.divide
  | power =>
    exact hfirst.between (t := .operation .power) rfl hsecond fun _ _ => Stands.raise

/-- The text of a negation is clear if that of its operand is. -/
theorem Clear.neg (hla : a.Legible) (ha : Clear a) : Clear (.neg a) := by
  have hoperand : Spelled (bracketed (a.level < 3) a.nesting) 3 a.regroup _ :=
    ha.grouped hla (fun h => Nat.le_of_not_lt (of_decide_eq_false h)) fun _ j hj hj' => by omega
  obtain ⟨ts, hw, hs⟩ := hoperand
  rw [Clear, print, String.toList_append]
  exact ⟨_, hw.negated, hs.neg⟩

/-- The text of a comparison is clear if those of its sides are. -/
theorem Clear.compare {f : Relation} (hla : a.Legible) (hlb : b.Legible) (ha : Clear a)
    (hb : Clear b) : Clear (.compare f a b) := by
  have hside {c : Expr} (hlc : c.Legible) (hc : Clear c) :
      Spelled (bracketed (c.level < 1) c.nesting) 1 c.regroup
        (Expr.grouped (c.level < 1) (c.print none)).toList := by
    refine hc.grouped hlc (fun h => Nat.le_of_not_lt (of_decide_eq_false h)) fun h j hj _ => ?_
    have hlow : c.level < 1 := of_decide_eq_true h
    omega
  rw [Clear, print, String.toList_append, String.toList_append, List.append_assoc]
  exact (hside hla ha).between (t := .relation f) rfl (hside hlb hb) fun _ _ => Stands.compare f

/-- Trees between commas are read as the regrouped trees. -/
theorem exists_arguments {as : List Expr} (hl : ∀ a ∈ as, a.Legible) (h : ∀ a ∈ as, Clear a) :
    ∃ ts, WrittenArguments (String.intercalate "," (printAll none as)).toList ts ∧
      StandArguments (nestingAll as) (regroupAll as) ts := by
  refine exists_writtenArguments (fun a ts => Stands a.nesting a.regroup ts 0)
    (fun as ts => StandMore (nestingAll as) (regroupAll as) ts)
    (fun as ts => StandArguments (nestingAll as) (regroupAll as) ts)
    StandMore.nil StandMore.cons StandArguments.nil StandArguments.cons fun a ha => ?_
  obtain ⟨ts, hw, hs⟩ := h a ha
  refine ⟨ts, hw, hs.loosen (Nat.zero_le _) fun j _ hj _ => ?_⟩
  rw [(hl a ha).alike.level]
  exact (Nat.ne_of_lt hj).symm

/-- A token that is an operand is read as such. -/
theorem Clear.leaf {t : Token} (hw : Written (e.print none).toList [t]) (hk : e.nesting = 0)
    (hl : e.level = 5) (h : ∀ rest, Nested 0 (.primary e.regroup) (t :: rest) rest) : Clear e := by
  rw [Clear, hk, hl]
  exact ⟨[t], hw, .of_primary h⟩

end Grammar

/-- The text of every tree is read as the regrouped tree. -/
theorem Expr.Legible.clear {e : Expr} (h : e.Legible) : Clear e ∧ ∀ c, e = .neg c → Clear c := by
  induction h with
  | @exact q hden hnum hmax =>
    have hlevel : (Expr.exact q).level = 5 := by
      rw [level, if_neg (by omega), Fraction.isWhole, hden]
      rfl
    have hq : Expr.ofInt q.num = .exact q := by rw [Expr.ofInt, Fraction.ofInt, ← hden]
    have hw : Written (print none (.exact q)).toList [.integer q.num] := by
      rw [print, Fraction.text, if_pos hden]
      exact written_integer ⟨hnum, hmax⟩
    refine ⟨.leaf hw rfl hlevel fun rest => ?_, fun _ hc => Expr.noConfusion hc⟩
    rw [Expr.regroup, ← hq]
    exact .integer
  | @real x hx =>
    have hlevel : (Expr.real x).level = 5 := if_neg (not_lt_zero_of_isPlus hx)
    -- infinity is written as a name, any other double as a numeral
    rcases reread_cases hx with ⟨htext, hread⟩ | ⟨y, hy, hnumeral, hl, hread⟩
    · have hw : Written (print none (.real x)).toList [.name "Infinity"] := by
        rw [print, realText, htext]
        exact written_name rfl
      refine ⟨.leaf hw rfl hlevel fun rest => ?_, fun _ hc => Expr.noConfusion hc⟩
      rw [Expr.regroup, hread]
      exact .name
    · have hopens : Opens (Decimal.canonical x).toList := by
        obtain ⟨c, cs, hcs, hc⟩ := hnumeral.exists_digit
        rw [hcs]
        exact opens_digit hc
      have hw : Written (print none (.real x)).toList [.decimal y] := ⟨hl, hopens⟩
      refine ⟨.leaf hw rfl hlevel fun rest => ?_, fun _ hc => Expr.noConfusion hc⟩
      rw [Expr.regroup, hread]
      exact .decimal
  | symbol hs =>
    exact ⟨.leaf (written_name hs) rfl rfl fun _ => .name, fun _ hc => Expr.noConfusion hc⟩
  | boolean b =>
    exact ⟨.leaf (written_boolean b) rfl rfl fun _ => .boolean, fun _ hc => Expr.noConfusion hc⟩
  | neg hl ih =>
    refine ⟨ih.1.neg hl, fun c hc => ?_⟩
    cases hc
    exact ih.1
  | @binary f a b hla hlb iha ihb =>
    refine ⟨?_, fun _ hc => Expr.noConfusion hc⟩
    -- a negated second summand is written as a difference, so its operand has to be clear
    by_cases hn : f = .add ∧ b.isNegative = true
    · obtain ⟨rfl, hn⟩ := hn
      obtain ⟨c, rfl⟩ := hlb.eq_neg hn
      cases hlb with
      | neg hlc =>
        exact iha.1.binary hla hlc (ihb.2 c rfl) (f := .subtract) fun hf => Operation.noConfusion hf
    · exact iha.1.binary hla hlb ihb.1 fun hf => Bool.eq_false_iff.mpr fun hb => hn ⟨hf, hb⟩
  | compare hla hlb iha ihb => exact ⟨iha.1.compare hla hlb ihb.1, fun _ hc => Expr.noConfusion hc⟩
  | call hs hl ih =>
    refine ⟨?_, fun _ hc => Expr.noConfusion hc⟩
    obtain ⟨ts, hw, hstand⟩ := exists_arguments hl fun a ha => (ih a ha).1
    rw [Clear, print, String.toList_append, String.toList_append, String.toList_append,
      List.append_assoc, List.append_assoc]
    exact ⟨_, hw.call hs, hstand.call _⟩
  | list hl ih =>
    refine ⟨?_, fun _ hc => Expr.noConfusion hc⟩
    obtain ⟨ts, hw, hstand⟩ := exists_arguments hl fun a ha => (ih a ha).1
    rw [Clear, print, String.toList_append, String.toList_append, List.append_assoc]
    exact ⟨_, hw.list, hstand.list⟩

namespace Grammar

/-- The canonical text is read as the regrouped tree where both limits are kept, and is refused
as nested too deeply otherwise. -/
theorem parse_canonical {e : Expr} (h : e.Legible) :
    parse (e.print none) =
      if e.nesting < maxLevels ∧ e.regroup.depth ≤ maxHeight then .ok e.regroup
      else .error .nestedTooDeeply := by
  obtain ⟨ts, hw, hs⟩ := h.clear.1
  have hwhole : Stands e.nesting e.regroup ts 0 := by
    refine hs.loosen (Nat.zero_le _) fun j _ hj _ => ?_
    rw [h.alike.level]
    exact (Nat.ne_of_lt hj).symm
  have hread := hwhole [] rfl
  rw [List.append_nil] at hread
  exact parse_of_nested (hw.lexes.scanAll_eq rfl) hread

end Grammar

/-- A canonical text is checked as the text of the regrouped tree, unless its brackets or that
tree are too deep. It is its own canonical form exactly where neither is and no sign is hidden,
provided that the doubles of the tree have texts that are canonical forms. -/
theorem Engine.validate_canonical {t c : String} (s : Builtin.State)
    (h : (builtin.validate t s).1 = .ok c) :
    ∃ e, Grammar.parse t = .ok e ∧ e.print none = c ∧
      (builtin.validate c s).1 =
        (if e.nesting < maxLevels ∧ e.regroup.depth ≤ maxHeight then .ok (e.regroup.print none)
          else .error (.parse ParseError.nestedTooDeeply.message)) ∧
      (e.Settled → ((builtin.validate c s).1 = .ok c ↔
        (e.nesting < maxLevels ∧ e.regroup.depth ≤ maxHeight) ∧ e.steady = true)) := by
  have hparse : ∃ e, Grammar.parse t = .ok e ∧ e.print none = c := by
    change (Builtin.parse t).map (Expr.print none) = .ok c at h
    unfold Builtin.parse at h
    cases hp : Grammar.parse t with
    | error f =>
      rw [hp] at h
      cases h
    | ok e =>
      rw [hp] at h
      exact ⟨e, rfl, Except.ok.inj h⟩
  obtain ⟨e, hp, rfl⟩ := hparse
  have hlegible := legible_of_parse hp
  have hcheck : (builtin.validate (e.print none) s).1 =
      if e.nesting < maxLevels ∧ e.regroup.depth ≤ maxHeight then .ok (e.regroup.print none)
      else .error (.parse ParseError.nestedTooDeeply.message) := by
    change (Builtin.parse (e.print none)).map (Expr.print none) = _
    rw [Builtin.parse, parse_canonical hlegible]
    by_cases hlimits : e.nesting < maxLevels ∧ e.regroup.depth ≤ maxHeight
    · rw [if_pos hlimits, if_pos hlimits]
      rfl
    · rw [if_neg hlimits, if_neg hlimits]
      rfl
  refine ⟨e, hp, rfl, hcheck, fun hsettled => ?_⟩
  rw [hcheck, ← hlegible.print_regroup_iff hsettled]
  by_cases hlimits : e.nesting < maxLevels ∧ e.regroup.depth ≤ maxHeight
  · rw [if_pos hlimits]
    exact ⟨fun htext => ⟨hlimits, Except.ok.inj htext⟩, fun htext => congrArg _ htext.2⟩
  · rw [if_neg hlimits]
    exact ⟨nofun, fun htext => absurd htext.1 hlimits⟩

/-- A sum in brackets is written without them and stays so. -/
theorem Engine.validate_canonical_sum :
    (builtin.validate "a+(b-c)" builtin.fresh).1 = .ok "a+b-c" ∧
      (builtin.validate "a+b-c" builtin.fresh).1 = .ok "a+b-c" := by
  have htext : (builtin.validate "a+(b-c)" builtin.fresh).1 = .ok "a+b-c" := by decide +kernel
  obtain ⟨e, he, -, -, hiff⟩ := validate_canonical builtin.fresh htext
  have hfits : (Grammar.parse "a+(b-c)").toOption.all (fun e =>
      decide (e.nesting < maxLevels) && decide (e.regroup.depth ≤ maxHeight) &&
        (e.steady && e.reals.isEmpty)) = true := by decide +kernel
  rw [he] at hfits
  simp only [Except.toOption, Option.all_some, Bool.and_eq_true, decide_eq_true_eq,
    List.isEmpty_iff] at hfits
  have hsettled : e.Settled := fun x hx => by
    rw [hfits.2.2] at hx
    cases hx
  exact ⟨htext, (hiff hsettled).mpr ⟨hfits.1, hfits.2.1⟩⟩

/-- A sign behind a plus sign is taken for that of a difference. -/
theorem Engine.validate_changes_canonical :
    ¬ ∀ (s : Builtin.State) (t c : String), (∀ x, .decimal x ∉ (scanAll t.toList).1) →
      (builtin.validate t s).1 = .ok c → (builtin.validate c s).1 = .ok c := by
  intro hall
  have hplain : ∀ x, .decimal x ∉ (scanAll "a+(-b+c)".toList).1 := by
    intro x hx
    have hnone : (scanAll "a+(-b+c)".toList).1.all (fun t => !t.isNumber) = true := by
      decide +kernel
    have hnumber := List.all_eq_true.mp hnone _ hx
    cases hnumber
  have hfixed := hall builtin.fresh "a+(-b+c)" "a+-b+c" hplain (by decide +kernel)
  have hchanged : (builtin.validate "a+-b+c" builtin.fresh).1 = .ok "a-b+c" := by decide +kernel
  rw [hchanged] at hfixed
  exact absurd (Except.ok.inj hfixed) (by decide)

end Reckoner
