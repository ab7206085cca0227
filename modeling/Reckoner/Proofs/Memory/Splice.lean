import Reckoner.Proofs.Grammar.Callees
import Reckoner.Proofs.Grammar.Fitting
import Reckoner.Proofs.Grammar.Spacing

/-!
# Tokens in the place of a name

The tokens of a value are written in the place of a name that is not called: in brackets if the
value is not atomic or follows a number, and as they are otherwise. `Filling.fits` says where
this changes no grouping. Behind an operand an atomic value must be a name; a number with a name
behind it may not be divided by, raised, or be an exponent; and brackets may neither be taken
for the arguments of a bracketed name nor lose the name that they call.
-/

namespace Reckoner

namespace Token

/-- The operation binds its right operand tighter than products do. -/
def bindsTightly : Token → Bool
  | operation .divide | operation .power => true
  | _ => false

end Token

/-- What a pass over tokens knows between two of them. -/
structure Seam where
  /-- The brackets so far. -/
  brackets : Bracketing
  /-- The token before. -/
  last : Option Token
  /-- A slash or a power sign stands before, with nothing but signs behind it. -/
  tight : Bool

namespace Seam

/-- Before the first token. -/
def start : Seam := ⟨.start, none, false⟩

/-- Go past a token. -/
def next (σ : Seam) (t : Token) : Seam :=
  ⟨σ.brackets.next t, some t, if t.isSummandSign then σ.tight else t.bindsTightly⟩

/-- A number stands before. -/
def afterNumber (σ : Seam) : Bool := σ.last.any Token.isNumber

/-- The end of an operand stands before. -/
def afterOperand (σ : Seam) : Bool := σ.last.any Token.endsOperand

/-- The pass leads from one place to another. -/
def Leads (σ : Seam) (ts : List Token) (σ' : Seam) (us : List Token) : Prop :=
  ∃ cs, ts = cs ++ us ∧ σ' = cs.foldl next σ

variable {σ σ' σ₁ : Seam} {ts us vs : List Token}

theorem Leads.refl (σ : Seam) (ts : List Token) : Leads σ ts σ ts := ⟨[], rfl, rfl⟩

/-- A token leads to the place behind it. -/
theorem Leads.next (σ : Seam) (t : Token) (ts : List Token) : Leads σ (t :: ts) (σ.next t) ts :=
  ⟨[t], rfl, rfl⟩

theorem Leads.trans (h : Leads σ ts σ₁ us) (h' : Leads σ₁ us σ' vs) : Leads σ ts σ' vs := by
  obtain ⟨cs, rfl, rfl⟩ := h
  obtain ⟨cs', rfl, rfl⟩ := h'
  exact ⟨cs ++ cs', (List.append_assoc ..).symm, List.foldl_append.symm⟩

/-- The brackets are followed on the way. -/
theorem brackets_foldl (σ : Seam) (cs : List Token) :
    (cs.foldl Seam.next σ).brackets = σ.brackets.after cs := by
  induction cs generalizing σ with
  | nil => rfl
  | cons t cs ih => exact ih (σ.next t)

/-- The brackets are those that the pass over brackets finds. -/
theorem Leads.brackets_eq {τ : Bracketing} {names : List String} (h : Leads σ ts σ' us)
    (hf : Bracketing.Finds σ.brackets ts names τ us) : σ'.brackets = τ := by
  obtain ⟨cs, rfl, rfl⟩ := h
  obtain ⟨⟨cs', hcs, rfl⟩, -⟩ := hf
  rw [List.append_cancel_right hcs, brackets_foldl]

end Seam

/-- What is written in the place of a name. -/
structure Filling where
  /-- The name. -/
  name : String
  /-- The value needs no brackets of its own. -/
  isAtomic : Bool
  /-- The tokens of the value. -/
  tokens : List Token
  /-- The value. -/
  value : Expr

namespace Filling

variable (x : Filling)

/-- The token is the name, and it is not called. -/
def replaces (t : Token) (behind : List Token) : Bool :=
  match t with
  | .name s => s == x.name && !Grammar.headIs Token.opensCall behind
  | _ => false

/-- The value is written without brackets. -/
def isBare (σ : Seam) : Bool := x.isAtomic && !σ.afterNumber

/-- What is written in the place of the name. -/
def insertion (σ : Seam) : List Token :=
  if x.isBare σ then x.tokens else .opening .round :: (x.tokens ++ [.closing .round])

/-- Write the value in the place of the name throughout. -/
def splice (σ : Seam) : List Token → List Token
  | [] => []
  | t :: ts =>
    (if x.replaces t ts then x.insertion σ else [t]) ++ splice (σ.next t) ts

/-- Without brackets the value is read as one operand. -/
def fitsBare (σ : Seam) (behind : List Token) : Bool :=
  match x.tokens with
  | [.name _] => true
  | [_] => !σ.afterOperand
  | [_, .name s] =>
    !σ.afterOperand && !σ.tight && !Grammar.headIs (Token.isSign (.operation .power)) behind &&
      !(s == "E" && Grammar.headIs (Token.isSign (.operation .subtract)) behind)
  | _ => false

/-- In brackets the value is no argument of the name before it. -/
def fitsBracketed (σ : Seam) : Bool :=
  σ.brackets.callee.all fun c => c.1 == x.name && x.value.symbolName?.isNone

/-- The name that a bracket calls is still called. -/
def keepsCallee (σ : Seam) : Bool :=
  σ.brackets.callee.all fun c =>
    !c.2 || c.1 != x.name || x.value.symbolName? == some x.name

/-- What is written for the token, if anything, changes no grouping. -/
def fits (σ : Seam) (t : Token) (behind : List Token) : Bool :=
  if x.replaces t behind then
    if x.isBare σ then x.fitsBare σ behind else x.fitsBracketed σ
  else !t.opensCall || x.keepsCallee σ

/-- The value fits everywhere. -/
def allFit (σ : Seam) : List Token → Bool
  | [] => true
  | t :: ts => x.fits σ t ts && allFit (σ.next t) ts

/-- The value in the place of the name throughout a tree. -/
def fill (e : Expr) : Expr := Expr.substitute x.name x.value e

/-- Tokens of an atomic value, and the value. -/
inductive Atom : List Token → Expr → Prop where
  | name (s : String) : Atom [.name s] (.symbol s)
  | leaf {t : Token} {e : Expr} : t.isLeaf = true → e.symbolName? = none →
    (∀ us, Grammar.Derives (.primary e) (t :: us) us) → Atom [t] e
  | product {t : Token} {e : Expr} {s : String} : t.isLeaf = true → e.symbolName? = none →
    (∀ us, Grammar.Derives (.primary e) (t :: us) us) →
    Atom [t, .name s] (.binary .multiply e (.symbol s))

/-- An atom has two tokens at most. -/
theorem Atom.length_le {ts : List Token} {e : Expr} (h : Atom ts e) : ts.length ≤ 2 := by
  cases h <;>
    simp only [List.length_cons, List.length_nil, Nat.reduceAdd, Nat.le_refl, Nat.reduceLeDiff]

/-- The tokens are read as the value. -/
structure Sound : Prop where
  /-- The whole of them. -/
  derives : Grammar.Derives (.expression x.value) x.tokens []
  /-- An atomic value is a single operand or a number in front of a name. -/
  atom : x.isAtomic = true → Atom x.tokens x.value

end Filling

end Reckoner
