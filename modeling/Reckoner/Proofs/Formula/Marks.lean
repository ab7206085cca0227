import Reckoner.Expr.Typeset

/-!
# Marks of a formula

A formula is made of marks: digits and letters, signs, commands, and two pairs of brackets, the
braces of a command and the brackets that group. Its text tells which marks it has, because no mark
is the beginning of another one. Brackets balance, so it makes sense to ask which signs a formula
shows outside of all brackets: the loosest of them say how it falls apart.
-/

namespace Reckoner.Formula

/-- The smallest parts of a formula. -/
inductive Mark where
  | plain (c : Char)
  | fraction
  | opening
  | closing
  | fence
  | fenceEnd
  | raise
  | times
  | plus
  | minus
  | relation (f : Relation)

namespace Mark

/-- How a mark is written. -/
def text : Mark → List Char
  | plain c => [c]
  | fraction => "\\frac".toList
  | opening => "\x7b".toList
  | closing => "\x7d".toList
  | fence => "\\left(".toList
  | fenceEnd => "\\right)".toList
  | raise => "^".toList
  | times => " \\cdot ".toList
  | plus => "+".toList
  | minus => "-".toList
  | relation f => (Expr.typesetRelation f).toList

/-- Characters that stand for themselves: digits, letters, and whatever is not in ASCII. -/
def isOrdinary (c : Char) : Bool := c.isAlphanum || 127 < c.toNat

/-- A mark for a character is for one that stands for itself. -/
def isLegible : Mark → Bool
  | plain c => isOrdinary c
  | _ => true

/-- Read one mark that does not stand for itself off the front of a text. -/
def readSign : List Char → Option (Mark × List Char)
  | '\x7b' :: r => some (opening, r)
  | '\x7d' :: r => some (closing, r)
  | '^' :: r => some (raise, r)
  | '+' :: r => some (plus, r)
  | '-' :: r => some (minus, r)
  | '=' :: r => some (relation .equal, r)
  | '<' :: r => some (relation .less, r)
  | '>' :: r => some (relation .greater, r)
  | ' ' :: r => some (times, r.drop 6)
  | '\\' :: 'f' :: r => some (fraction, r.drop 3)
  | '\\' :: 'l' :: 'e' :: 'f' :: r => some (fence, r.drop 2)
  | '\\' :: 'l' :: 'e' :: 'q' :: r => some (relation .lessEqual, r.drop 1)
  | '\\' :: 'r' :: r => some (fenceEnd, r.drop 5)
  | '\\' :: 'n' :: r => some (relation .notEqual, r.drop 3)
  | '\\' :: 'g' :: r => some (relation .greaterEqual, r.drop 3)
  | _ => none

/-- Read one mark off the front of a text. -/
def read : List Char → Option (Mark × List Char)
  | [] => none
  | c :: r => if isOrdinary c then some (plain c, r) else readSign (c :: r)

/-- Every mark is read back, whatever follows. -/
theorem read_text {m : Mark} (h : m.isLegible = true) (r : List Char) :
    read (m.text ++ r) = some (m, r) := by
  cases m with
  | plain c => exact if_pos h
  | relation f => cases f <;> rfl
  | _ => rfl

end Mark

/-- The text of a formula. -/
def spell (ms : List Mark) : List Char := ms.flatMap Mark.text

theorem spell_append (ms ns : List Mark) : spell (ms ++ ns) = spell ms ++ spell ns :=
  List.flatMap_append

/-- The text tells which marks there are. -/
theorem spell_injective {ms ns : List Mark} (hms : ∀ m ∈ ms, m.isLegible = true)
    (hns : ∀ n ∈ ns, n.isLegible = true) (h : spell ms = spell ns) : ms = ns := by
  have hfirst {m : Mark} (hm : m.isLegible = true) (ks : List Mark) :
      Mark.read (spell (m :: ks)) = some (m, spell ks) := Mark.read_text hm _
  induction ms generalizing ns with
  | nil =>
    cases ns with
    | nil => rfl
    | cons n ns =>
      have hread := hfirst (List.forall_mem_cons.mp hns).1 ns
      rw [← h] at hread
      cases hread
  | cons m ms ih =>
    obtain ⟨hm, hrest⟩ := List.forall_mem_cons.mp hms
    have hread := hfirst hm ms
    cases ns with
    | nil =>
      rw [h] at hread
      cases hread
    | cons n ns =>
      obtain ⟨hn, hrest'⟩ := List.forall_mem_cons.mp hns
      rw [h, hfirst hn] at hread
      obtain ⟨rfl, htext⟩ := Prod.mk.inj (Option.some.inj hread)
      rw [ih hrest hrest' htext.symm]

/-! ## Brackets -/

namespace Mark

/-- How a mark changes the number of open brackets. -/
def turn : Mark → Int
  | opening | fence => 1
  | closing | fenceEnd => -1
  | _ => 0

/-- How loosely a sign binds the operands beside it: relations 0, sums 1, products 2. Whatever
else can stand behind an operand binds closer. -/
def rank : Mark → Nat
  | relation _ => 0
  | plus | minus => 1
  | times => 2
  | _ => 3

/-- An operand can end here. -/
def endsOperand : Mark → Bool
  | plain _ | closing | fenceEnd => true
  | _ => false

/-- A sign between operands opens no bracket and ends no operand. -/
theorem sign_of_rank {m : Mark} (h : m.rank < 3) : m.turn = 0 ∧ m.endsOperand = false := by
  cases m with
  | relation | plus | minus | times => exact ⟨rfl, rfl⟩
  | _ => exact absurd h (Nat.lt_irrefl 3)

end Mark

/-- The number of brackets that are left open. -/
def net (ms : List Mark) : Int := ms.foldr (fun m n => m.turn + n) 0

theorem net_cons (m : Mark) (ms : List Mark) : net (m :: ms) = m.turn + net ms := rfl

theorem net_append (ms ns : List Mark) : net (ms ++ ns) = net ms + net ns := by
  induction ms with
  | nil => exact (Int.zero_add _).symm
  | cons m ms ih => rw [List.cons_append, net_cons, net_cons, ih, Int.add_assoc]

/-- Every bracket is closed behind where it was opened, and none is left open. -/
structure Balanced (ms : List Mark) : Prop where
  /-- As many brackets are closed as are opened. -/
  even : net ms = 0
  /-- At no place more brackets are closed than were opened. -/
  nonneg : ∀ ks, ks <+: ms → 0 ≤ net ks

namespace Balanced

variable {ms ns : List Mark}

theorem nil : Balanced [] := ⟨rfl, fun ks hks => by rw [List.prefix_nil.mp hks]; decide⟩

theorem append (hms : Balanced ms) (hns : Balanced ns) : Balanced (ms ++ ns) where
  even := by rw [net_append, hms.even, hns.even, Int.add_zero]
  nonneg ks hks := by
    rcases List.prefix_or_prefix_of_prefix hks (List.prefix_append ms ns) with h | ⟨us, rfl⟩
    · exact hms.nonneg ks h
    · rw [net_append, hms.even, Int.zero_add]
      exact hns.nonneg us ((List.prefix_append_right_inj ms).mp hks)

/-- A mark that is no bracket changes nothing. -/
theorem single {m : Mark} (h : m.turn = 0) : Balanced [m] where
  even := by rw [net_cons, h]; rfl
  nonneg ks hks := by
    cases ks with
    | nil => decide
    | cons k ks =>
      obtain ⟨rfl, hnil⟩ := List.cons_prefix_cons.mp hks
      rw [List.prefix_nil.mp hnil, net_cons, h]
      decide

/-- Brackets around balanced marks close at the end only. -/
theorem enclosed_nonneg {o : Mark} (ho : o.turn = 1) (h : Balanced ms) {ks : List Mark}
    (hks : ks <+: ms) : 0 < net (o :: ks) := by
  have := h.nonneg ks hks
  rw [net_cons, ho]
  omega

/-- Brackets may be put around a balanced formula. -/
theorem enclosed {o c : Mark} (ho : o.turn = 1) (hc : c.turn = -1) (h : Balanced ms) :
    Balanced (o :: (ms ++ [c])) where
  even := by
    rw [net_cons, net_append, h.even, ho, net_cons, hc]
    rfl
  nonneg ks hks := by
    cases ks with
    | nil => decide
    | cons k ks =>
      obtain ⟨rfl, hinside⟩ := List.cons_prefix_cons.mp hks
      rcases List.prefix_concat_iff.mp hinside with rfl | hinside
      · rw [net_cons, net_append, h.even, ho, net_cons, hc]
        decide
      · exact Int.le_of_lt (h.enclosed_nonneg ho hinside)

end Balanced

/-! ## Cuts -/

/-- Two cuts of one list are the same, or one is behind the other. -/
theorem append_cons_cases {α : Type} {as bs cs ds : List α} {a c : α}
    (h : as ++ a :: bs = cs ++ c :: ds) :
    (as = cs ∧ a = c ∧ bs = ds) ∨ (∃ us, as = cs ++ c :: us ∧ ds = us ++ a :: bs) ∨
      ∃ us, cs = as ++ a :: us ∧ bs = us ++ c :: ds := by
  rcases List.append_eq_append_iff.mp h with ⟨us, rfl, hus⟩ | ⟨us, rfl, hus⟩
  · cases us with
    | nil =>
      obtain ⟨rfl, rfl⟩ := List.cons.inj hus
      exact .inl ⟨(List.append_nil as).symm, rfl, rfl⟩
    | cons u us =>
      obtain ⟨rfl, hbs⟩ := List.cons.inj hus
      exact .inr (.inr ⟨us, rfl, hbs⟩)
  · cases us with
    | nil =>
      obtain ⟨rfl, rfl⟩ := List.cons.inj hus
      exact .inl ⟨List.append_nil cs, rfl, rfl⟩
    | cons u us =>
      obtain ⟨rfl, hds⟩ := List.cons.inj hus
      exact .inr (.inl ⟨us, rfl, hds⟩)

section

variable {as bs cs ds ms : List Mark} {a c m o : Mark} {n : Nat}

/-- The bracket that closes balanced marks is found. -/
theorem Balanced.cut_unique (has : Balanced as) (hcs : Balanced cs) (ha : a.turn = -1)
    (hc : c.turn = -1) (h : as ++ a :: bs = cs ++ c :: ds) : as = cs ∧ a = c ∧ bs = ds := by
  have hshut {us vs ws : List Mark} {u : Mark} (hus : Balanced us) (hu : u.turn = -1)
      (hvs : Balanced vs) (hcut : vs = us ++ u :: ws) : False := by
    have hnet := hvs.nonneg (us ++ [u]) ⟨ws, by rw [hcut, List.append_assoc]; rfl⟩
    rw [net_append, hus.even, net_cons, hu] at hnet
    exact absurd hnet (by decide)
  rcases append_cons_cases h with h | ⟨us, hus, -⟩ | ⟨us, hus, -⟩
  · exact h
  · exact (hshut hcs hc has hus).elim
  · exact (hshut has ha hcs hus).elim

/-! ## Signs outside of brackets -/

/-- The last mark can be the last of an operand. -/
def endsOperand (ms : List Mark) : Bool := ms.getLast?.any Mark.endsOperand

/-- The last part decides whether an operand can end. -/
theorem endsOperand_append (as : List Mark) (h : bs ≠ []) :
    endsOperand (as ++ bs) = endsOperand bs := by
  rw [endsOperand, endsOperand, List.getLast?_append, List.getLast?_eq_some_getLast h,
    Option.some_or]

/-- The marks have this one behind an operand and outside of all brackets. -/
def Shows (ms : List Mark) (m : Mark) : Prop :=
  ∃ as bs, ms = as ++ m :: bs ∧ net as = 0 ∧ endsOperand as = true

/-- No mark is shown that binds its operands more loosely. -/
def Tight (n : Nat) (ms : List Mark) : Prop := ∀ m, Shows ms m → n ≤ m.rank

/-- A tighter formula is tight for a lower rank too. -/
theorem Tight.mono {k : Nat} (h : Tight n ms) (hk : k ≤ n) : Tight k ms :=
  fun m hm => Nat.le_trans hk (h m hm)

theorem tight_nil : Tight n [] := by
  rintro m ⟨as, bs, h, -⟩
  exact absurd h.symm (by simp)

/-- In front of a mark that stands first there is no operand. -/
theorem tight_single (m : Mark) : Tight n [m] := by
  rintro k ⟨as, bs, h, -, hlast⟩
  cases as with
  | nil => cases hlast
  | cons a as =>
    have hnil := (List.cons.inj h).2
    exact absurd hnil.symm (by simp)

/-- What is shown by balanced marks and others behind them is shown by either, or comes first among
the others. -/
theorem Tight.append (has : Tight n as) (hnet : net as = 0) (hbs : Tight n bs)
    (hfirst : endsOperand as = true → ∀ b ∈ bs.head?, n ≤ b.rank) : Tight n (as ++ bs) := by
  rintro m ⟨us, vs, h, hus, hlast⟩
  rcases List.append_eq_append_iff.mp h with ⟨ws, rfl, hws⟩ | ⟨ws, rfl, hws⟩
  · by_cases hnil : ws = []
    · subst hnil
      rw [List.append_nil] at hlast
      exact hfirst hlast m (by rw [hws]; rfl)
    · rw [net_append, hnet, Int.zero_add] at hus
      rw [endsOperand_append _ hnil] at hlast
      exact hbs m ⟨ws, vs, hws, hus, hlast⟩
  · cases ws with
    | nil =>
      rw [List.append_nil] at hfirst
      exact hfirst hlast m (by rw [← List.nil_append bs, ← hws]; rfl)
    | cons w ws =>
      obtain ⟨rfl, -⟩ := List.cons.inj hws
      exact has m ⟨us, ws, rfl, hus, hlast⟩

/-- A sign in front of marks hides what comes first among them. -/
theorem Tight.cons (hm : m.turn = 0 ∧ m.endsOperand = false) (hbs : Tight n bs) :
    Tight n (m :: bs) := by
  refine Tight.append (tight_single m) (by rw [net_cons, hm.1]; rfl) hbs fun hlast => ?_
  exact absurd hlast (Bool.eq_false_iff.mp hm.2)

/-- A sign between operands is shown, and nothing that is not shown by the operands. -/
theorem Tight.join (has : Tight n as) (hnet : net as = 0) (hbs : Tight n bs)
    (hm : m.turn = 0 ∧ m.endsOperand = false) (hrank : n ≤ m.rank) : Tight n (as ++ m :: bs) :=
  has.append hnet (hbs.cons hm) fun _ b hb => by
    cases hb
    exact hrank

/-- Nothing is shown of what stands in brackets. -/
theorem tight_enclosed (ho : o.turn = 1) (h : Balanced ms) : Tight n (o :: (ms ++ [c])) := by
  rintro m ⟨as, bs, hcut, hnet, hlast⟩
  cases as with
  | nil => cases hlast
  | cons a as =>
    obtain ⟨rfl, hrest⟩ := List.cons.inj hcut
    have hinside : as <+: ms := by
      refine (List.prefix_concat_iff.mp ⟨_, hrest.symm⟩).resolve_left fun has => ?_
      rw [has] at hrest
      exact absurd (List.self_eq_append_right.mp hrest) (List.cons_ne_nil _ _)
    have hpos := h.enclosed_nonneg ho hinside
    omega

/-- Behind an earlier sign a later one is shown as well. -/
theorem shows_behind (hrank : c.rank < 3) (hcs : net cs = 0) (hnet : net (cs ++ c :: as) = 0)
    (hlast : endsOperand (cs ++ c :: as) = true) : Shows (as ++ a :: bs) a := by
  obtain ⟨hturn, hend⟩ := Mark.sign_of_rank hrank
  rw [net_append, hcs, net_cons, hturn, Int.zero_add, Int.zero_add] at hnet
  rw [endsOperand_append _ (List.cons_ne_nil c as)] at hlast
  by_cases hnil : as = []
  · rw [hnil] at hlast
    exact absurd hlast (Bool.eq_false_iff.mp hend)
  · rw [← List.singleton_append, endsOperand_append _ hnil] at hlast
    exact ⟨as, bs, rfl, hnet, hlast⟩

/-- Where two signs of one rank are shown and nothing behind them is as loose, they are the same
sign. -/
theorem cut_unique (has : net as = 0) (hcs : net cs = 0) (hlast : endsOperand as = true)
    (hlast' : endsOperand cs = true) (hbs : Tight (a.rank + 1) bs) (hds : Tight (a.rank + 1) ds)
    (hrank : c.rank = a.rank) (hsign : a.rank < 3) (h : as ++ a :: bs = cs ++ c :: ds) :
    as = cs ∧ a = c ∧ bs = ds := by
  rcases append_cons_cases h with h | ⟨us, rfl, rfl⟩ | ⟨us, rfl, rfl⟩
  · exact h
  · have := hds a (shows_behind (hrank ▸ hsign) hcs has hlast)
    omega
  · have := hbs c (shows_behind hsign has hcs hlast')
    omega

end

end Reckoner.Formula
