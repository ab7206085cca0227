import Reckoner.Expr.Printer
import Reckoner.Proofs.Decimal.Canonical
import Reckoner.Proofs.Grammar.Completeness
import Reckoner.Proofs.Grammar.Fitting

/-!
# Regrouping

The canonical text of `a + (b + c)` has no brackets, so it is read as `(a + b) + c`, and
`a + (-b)` is written and read as `a - b`. `regroup` gives, for every tree that is read from
a text, the tree that its canonical text stands for. The root stays the same kind of operation.
-/

namespace Reckoner

namespace Operation

/-- The first operand stands in brackets. -/
def bracketsLeft : Operation → Expr → Bool
  | power, a => a.level ≤ 4 || a.isNegative
  | f, a => a.level < f.level

/-- The second operand stands in brackets. -/
def bracketsRight : Operation → Expr → Bool
  | add, b => b.level < 1
  | subtract, b => b.level ≤ 1 || b.isNegative
  | multiply, b => b.level < 2 || b.isNegative
  | divide, b => b.level ≤ 2 || b.isNegative
  | power, b => b.level < 4

/-- The second operand has no brackets where it is a chain of operations of the same level. -/
def opensChain : Operation → Bool
  | add | multiply => true
  | _ => false

end Operation

namespace Grammar

/-- One token that is an operand is read as such. -/
theorem parse_of_leaf {s : String} {t : Token} {e : Expr}
    (hs : Token.scanAll s.toList = ([t], none))
    (h : Nested 0 (.primary e) [t] []) (hd : e.children = []) : parse s = .ok e := by
  have hpower : Nested 0 (.power e) [t] [] := .base rfl (.plain h fun _ => rfl)
  have hunary : Nested 0 (.unary e) [t] [] := .unsigned hpower.derives.no_sign hpower
  have hsum : Nested 0 (.sum e) [t] [] :=
    .sum (.product hunary (.lastFactor rfl)) (.lastSummand rfl)
  have hnested : Nested 0 (.expression e) [t] [] := .expression hsum (.lastSide rfl)
  have hdepth : e.depth ≤ maxHeight := by
    have hone : e.depth = 1 := by simp [Expr.depth, Expr.deepest, hd]
    rw [hone]
    decide
  rw [parse_of_nested hs hnested, if_pos ⟨by decide, hdepth⟩]

end Grammar

namespace Expr

open Token (isName)

/-- What is read from texts: natural numbers of the range, doubles without a minus sign,
names that can be read, and what is made from these. -/
inductive Legible : Expr → Prop where
  | exact {q : Fraction} : q.den = 1 → 0 ≤ q.num → q.num ≤ Fraction.greatest → Legible (.exact q)
  | real {x : Float} : IsPlus (unpacked x) → Legible (.real x)
  | symbol {s : String} : isName s = true → Legible (.symbol s)
  | boolean (b : Bool) : Legible (.boolean b)
  | neg {a : Expr} : Legible a → Legible (.neg a)
  | binary {f : Operation} {a b : Expr} : Legible a → Legible b → Legible (.binary f a b)
  | compare {f : Relation} {a b : Expr} : Legible a → Legible b → Legible (.compare f a b)
  | call {s : String} {as : List Expr} : isName s = true → (∀ a ∈ as, Legible a) →
    Legible (.call s as)
  | list {as : List Expr} : (∀ a ∈ as, Legible a) → Legible (.list as)

/-! ## The tree of the canonical text -/

/-- What the canonical text of a double is read as. -/
def reread (x : Float) : Expr :=
  match Grammar.parse (Decimal.canonical x) with
  | .ok e => e
  | .error _ => real x

/-- Put an operand in front of a chain of operations of the same level. -/
def join (f : Operation) (a : Expr) : Expr → Expr
  | binary g b c => if g.level = f.level then binary g (join f a b) c else binary f a (binary g b c)
  | b => binary f a b

/-- Put two operands together as their text is read. -/
def fuse : Operation → Expr → Expr → Expr
  | .add, a, neg b => binary .subtract a b
  | f, a, b => if f.opensChain then join f a b else binary f a b

mutual

/-- The tree that the canonical text stands for. -/
def regroup : Expr → Expr
  | exact q => exact q
  | real x => reread x
  | symbol name => symbol name
  | boolean b => boolean b
  | neg a => neg (regroup a)
  | binary f a b => fuse f (regroup a) (regroup b)
  | compare f a b => compare f (regroup a) (regroup b)
  | call name as => call name (regroupAll as)
  | list as => list (regroupAll as)

/-- The trees that the canonical texts stand for. -/
def regroupAll : List Expr → List Expr
  | [] => []
  | a :: as => regroup a :: regroupAll as

end

/-- The chain of operations starts with a negated operand. -/
def leadsWithSign (f : Operation) : Expr → Bool
  | neg _ => true
  | binary g a _ => g.level == f.level && leadsWithSign f a
  | _ => false

theorem regroupAll_eq_map (as : List Expr) : regroupAll as = as.map regroup := by
  induction as with
  | nil => rfl
  | cons a as ih => rw [regroupAll, ih, List.map_cons]

variable {a b e : Expr} {f g : Operation}

/-- Only a negated operand has a minus sign of its own. -/
theorem Legible.eq_neg (h : e.Legible) (hn : e.isNegative = true) : ∃ a, e = .neg a := by
  cases h with
  | neg => exact ⟨_, rfl⟩
  | exact _ hnum =>
    rw [isNegative, decide_eq_true_eq] at hn
    omega
  | real hx =>
    rw [isNegative, decide_eq_true_eq] at hn
    exact absurd hn (not_lt_zero_of_isPlus hx)
  | _ => cases hn

/-- The text of a double is read as a double or as the name of the infinity. -/
theorem reread_cases {x : Float} (h : IsPlus (unpacked x)) :
    (Decimal.canonical x = "Infinity" ∧ reread x = symbol "Infinity") ∨
      ∃ y, IsPlus (unpacked y) ∧ Decimal.IsNumeral (Decimal.canonical x).toList ∧
        Token.Lexes Token.Apart (Decimal.canonical x).toList [.decimal y] ∧ reread x = real y := by
  rcases Decimal.isNumeral_canonical h with hx | hx
  · have hs : Token.scanAll (Decimal.canonical x).toList = ([.name "Infinity"], none) := by
      rw [hx]
      exact (Token.lexes_name rfl).scanAll_eq rfl
    rw [reread, Grammar.parse_of_leaf hs .name rfl]
    exact .inl ⟨hx, rfl⟩
  · obtain ⟨y, hy, hl⟩ := hx.lexes
    rw [reread, Grammar.parse_of_leaf (hl.scanAll_eq rfl) .decimal rfl]
    exact .inr ⟨y, hy, hx, hl, rfl⟩

/-! ## What regrouping keeps -/

/-- The root is the same kind of operation, and the chain below it starts alike. -/
structure Alike (a b : Expr) : Prop where
  /-- The texts bind alike. -/
  level : a.level = b.level
  /-- The texts have both a minus sign in front, or neither has. -/
  sign : a.isNegative = b.isNegative
  /-- The chains have both a minus sign in front, or neither has. -/
  leads : ∀ f, leadsWithSign f a = leadsWithSign f b

theorem Alike.refl (a : Expr) : Alike a a := ⟨rfl, rfl, fun _ => rfl⟩

/-- Alike operands have brackets alike on the left. -/
theorem Alike.bracketsLeft (h : Alike a b) (f : Operation) :
    f.bracketsLeft a = f.bracketsLeft b := by
  cases f <;> simp only [Operation.bracketsLeft, h.level, h.sign]

/-- Alike operands have brackets alike on the right. -/
theorem Alike.bracketsRight (h : Alike a b) (f : Operation) :
    f.bracketsRight a = f.bracketsRight b := by
  cases f <;> simp only [Operation.bracketsRight, h.level, h.sign]

/-- A joined chain binds as its operation does. -/
theorem level_join (f : Operation) (a b : Expr) : (join f a b).level = f.level := by
  unfold join
  split
  · split
    · assumption
    · rfl
  · rfl

theorem isNegative_join (f : Operation) (a b : Expr) : (join f a b).isNegative = false := by
  unfold join
  split
  · split <;> rfl
  · rfl

/-- A sign leads a joined chain if it leads its first operand and the levels are equal. -/
theorem leadsWithSign_join (f g : Operation) (a b : Expr) :
    leadsWithSign g (join f a b) = (f.level == g.level && leadsWithSign g a) := by
  fun_induction join f a b with
  | case1 h b c heq ih =>
    rw [leadsWithSign, ih, heq, ← Bool.and_assoc, Bool.and_self]
  | case2 => rfl
  | case3 => rfl

/-- Operands of a chain are joined, unless the second is negated. -/
theorem fuse_eq_join (hf : f.opensChain = true) (hb : b.isNegative = false) :
    fuse f a b = join f a b := by
  unfold fuse
  split
  · cases hb
  · rw [if_pos hf]

/-- What two operands are put together to. -/
theorem alike_fuse (f : Operation) (a b : Expr) : Alike (fuse f a b) (binary f a b) := by
  unfold fuse
  split
  · exact ⟨rfl, rfl, fun _ => rfl⟩
  · split
    · exact ⟨level_join f a b, isNegative_join f a b, fun g => leadsWithSign_join f g a b⟩
    · exact .refl _

/-- What a double is reread as binds like the double. -/
theorem alike_reread {x : Float} (h : IsPlus (unpacked x)) : Alike (reread x) (real x) := by
  have hreal {y : Float} (hy : IsPlus (unpacked y)) :
      (real y).level = 5 ∧ (real y).isNegative = false := by
    simp only [level, isNegative, not_lt_zero_of_isPlus hy, if_false, decide_false, and_self]
  rcases reread_cases h with ⟨-, hx⟩ | ⟨y, hy, -, -, hx⟩
  · rw [hx]
    exact ⟨(hreal h).1.symm, (hreal h).2.symm, fun _ => rfl⟩
  · rw [hx]
    exact ⟨(hreal hy).1.trans (hreal h).1.symm, (hreal hy).2.trans (hreal h).2.symm, fun _ => rfl⟩

/-- Regrouping keeps the kind of the root. -/
theorem Legible.alike (h : e.Legible) : Alike (regroup e) e := by
  induction h with
  | exact | symbol | boolean => exact .refl _
  | real hx => exact alike_reread hx
  | @binary f a b _ _ iha =>
    have hfuse := alike_fuse f (regroup a) (regroup b)
    refine ⟨hfuse.level, hfuse.sign, fun g => ?_⟩
    rw [regroup, hfuse.leads, leadsWithSign, leadsWithSign, iha.leads]
  | neg | compare | call | list => exact ⟨rfl, rfl, fun _ => rfl⟩

/-- A joined chain of legible operands is legible. -/
theorem Legible.join (ha : a.Legible) (hb : b.Legible) : (join f a b).Legible := by
  fun_induction Expr.join f a b with
  | case1 g b c _ ih =>
    cases hb with
    | binary hb hc => exact .binary (ih hb) hc
  | case2 => exact .binary ha hb
  | case3 => exact .binary ha hb

/-- Regrouping keeps what can be read. -/
theorem Legible.regroup (h : e.Legible) : (regroup e).Legible := by
  induction h with
  | exact hden hnum hmax => exact .exact hden hnum hmax
  | real hx =>
    rcases reread_cases hx with ⟨-, he⟩ | ⟨y, hy, -, -, he⟩
    · rw [Expr.regroup, he]
      exact .symbol rfl
    · rw [Expr.regroup, he]
      exact .real hy
  | symbol hs => exact .symbol hs
  | boolean b => exact .boolean b
  | neg _ ih => exact .neg ih
  | binary _ _ iha ihb =>
    unfold Expr.regroup fuse
    split
    · rename_i heq
      rw [heq] at ihb
      cases ihb with
      | neg hb => exact .binary iha hb
    · split
      · exact iha.join ihb
      · exact .binary iha ihb
  | compare _ _ iha ihb => exact .compare iha ihb
  | call hs _ ih =>
    rw [Expr.regroup, regroupAll_eq_map]
    exact .call hs (List.forall_mem_map.mpr ih)
  | list _ ih =>
    rw [Expr.regroup, regroupAll_eq_map]
    exact .list (List.forall_mem_map.mpr ih)

/-! ## The text of operations -/

/-- The text behind the first operand. -/
def behind : Operation → Expr → String
  | .add, neg b => "-" ++ grouped (Operation.subtract.bracketsRight b) (print none b)
  | f, b => f.sign ++ grouped (f.bracketsRight b) (print none b)

/-- Behind the first operand stand the sign and the second, unless two signs make one. -/
theorem behind_eq (h : f = .add → b.isNegative = false) :
    behind f b = f.sign ++ grouped (f.bracketsRight b) (print none b) := by
  unfold behind
  split
  · cases h rfl
  · rfl

/-- The text of an operation is the text of its first operand and what stands behind that. -/
theorem print_binary (hb : b.Legible) (f : Operation) (a : Expr) :
    print none (binary f a b) = grouped (f.bracketsLeft a) (print none a) ++ behind f b := by
  cases f with
  | add =>
    cases hb with
    | @exact q hden hnum =>
      have hsign : ¬ q.num < 0 := by omega
      have hneeded : Operation.add.bracketsRight (exact q) = false := by
        simp [Operation.bracketsRight, level, hsign, Fraction.isWhole, hden]
      rw [behind_eq (b := exact q) fun _ => decide_eq_false hsign, hneeded]
      simp only [print, hsign, if_false, grouped, String.append_assoc]
      rfl
    | @real x hx =>
      have hsign := not_lt_zero_of_isPlus hx
      have hneeded : Operation.add.bracketsRight (real x) = false := by
        simp [Operation.bracketsRight, level, hsign]
      rw [behind_eq (b := real x) fun _ => decide_eq_false hsign, hneeded]
      simp only [print, hsign, if_false, grouped, String.append_assoc]
      rfl
    | _ =>
      simp only [print, behind, String.append_assoc]
      rfl
  | _ =>
    simp only [print, behind, String.append_assoc]
    rfl

end Expr

end Reckoner
