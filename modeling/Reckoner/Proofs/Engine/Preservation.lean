import Reckoner.Engine.Simplify

/-!
# Properties that simplification keeps

What a fold gives is a number, an operand or a part of one, or the node itself. So
simplification keeps every property of trees that numbers have, that negation keeps, that lists
share with their items, and that holds of the nodes which their folds leave alone.
-/

namespace Reckoner

namespace Run

variable {α β : Type} {x : Run α} {k : α → Run β} {a : α} {b : β}

/-- The run gives the result, whatever warnings were there before. -/
def Gives (x : Run α) (a : α) : Prop := ∀ warnings, (x.run.run warnings).1 = .ok a

theorem Gives.pure (a : α) : Gives (pure a) a := fun _ => rfl

/-- Runs give their results one after the other. -/
theorem Gives.bind (h : Gives x a) (hk : Gives (k a) b) : Gives (x >>= k) b := by
  intro warnings
  rw [ExceptT.run_bind, StateT.run_bind]
  have hx := h warnings
  generalize x.run.run warnings = r at hx ⊢
  obtain ⟨r, later⟩ := r
  cases hx
  exact hk later

theorem Gives.checkpoint : Gives (checkpoint false) () := fun _ => rfl

theorem Gives.warn (message : String) : Gives (warn message) () := fun _ => rfl

/-- A result without an error is given. -/
theorem Gives.ofExcept {r : Except EngineError α} (h : r = .ok a) : Gives (ofExcept r) a := by
  rw [h]
  exact .pure a

/-- A run that gives a result got through its first part. -/
theorem exists_of_bind {before after : List String}
    (h : (x >>= k).run.run before = (.ok b, after)) :
    ∃ a between, x.run.run before = (.ok a, between) ∧ (k a).run.run between = (.ok b, after) := by
  rw [ExceptT.run_bind, StateT.run_bind] at h
  generalize x.run.run before = r at h ⊢
  obtain ⟨r | a, between⟩ := r
  · cases h
  · exact ⟨a, between, rfl, h⟩

end Run

namespace Expr

open Run

/-! ## What folds give -/

variable {f : Operation} {g : Relation} {a b c : Expr} {as bs cs : List Expr}

/-- Exact arithmetic gives a number, if it gives anything. -/
theorem isNumber_of_foldExact {p q : Fraction} (h : foldExact f p q = .ok (some c)) :
    c.isNumber = true := by
  have hmap : ∀ {o : Option Fraction}, o.map exact = some c → c.isNumber = true := by
    intro o ho
    obtain ⟨r, -, rfl⟩ := Option.map_eq_some_iff.mp ho
    rfl
  have hor : ∀ {o : Option Fraction} {x : Float}, (o.map exact).or (some (real x)) = some c →
      c.isNumber = true := by
    intro o x ho
    rcases Option.or_eq_some_iff.mp ho with ho | ⟨-, ho⟩
    · exact hmap ho
    · cases ho
      rfl
  cases f with
  | add | subtract | multiply => exact hor (Except.ok.inj h)
  | divide =>
    simp only [foldExact] at h
    split at h
    · cases h
    · exact hor (Except.ok.inj h)
  | power =>
    simp only [foldExact] at h
    split at h
    · cases h
    · split at h
      · exact hor (Except.ok.inj h)
      · exact hmap (Except.ok.inj h)

/-- What arithmetic on `a` and `b` can give. -/
inductive Outcome (f : Operation) (a b : Expr) : Expr → Prop where
  | left : Outcome f a b a
  | right : Outcome f a b b
  | negated : Outcome f a b (negate b)
  | number {c : Expr} : c.isNumber = true → Outcome f a b c
  | symbolic : Outcome f a b (.binary f a b)

/-- An identity gives an operand, a number, a negation or the node itself. -/
theorem outcome_applyIdentities (f : Operation) (a b : Expr) :
    Outcome f a b (applyIdentities f a b) := by
  cases f <;> simp only [applyIdentities] <;> repeat' split
  all_goals first
    | exact .left
    | exact .right
    | exact .negated
    | exact .number rfl
    | exact .symbolic

/-- A fold of two operands gives one of the outcomes. -/
theorem outcome_foldScalar (h : foldScalar f a b = .ok c) : Outcome f a b c := by
  simp only [foldScalar] at h
  split at h
  · rename_i p q
    generalize hx : foldExact f p q = x at h
    obtain _ | _ | d := x
    · cases h
    · cases h
      exact .symbolic
    · cases h
      exact .number (isNumber_of_foldExact hx)
  · split at h
    · split at h
      · split at h
        · cases h
        · cases h
          exact .number rfl
      · cases h
        exact outcome_applyIdentities f a b
    · cases h
      exact outcome_applyIdentities f a b

/-- No list. -/
def NoList (a : Expr) : Prop := ∀ as, a ≠ .list as

/-- Where no list stands on the right, the operands are folded as numbers are. -/
theorem NoList.foldRight_eq (h : NoList b) : foldRight f a b = foldScalar f a b := by
  rw [foldRight]
  exact h

/-- Where no list stands on the left, the right operand decides how they are folded. -/
theorem NoList.foldBinary_eq (h : NoList a) : foldBinary f a b = foldRight f a b := by
  rw [foldBinary]
  · exact h
  · exact fun as _ ha _ => h as ha

/-- What holds of the negation of each item holds of the negated list. -/
theorem forall_mem_negateAll {P : Expr → Prop} (h : ∀ a ∈ as, P (negate a)) :
    ∀ a ∈ negateAll as, P a := by
  induction as with
  | nil => rw [negateAll]; exact List.forall_mem_nil _
  | cons a as ih =>
    rw [List.forall_mem_cons] at h
    rw [negateAll, List.forall_mem_cons]
    exact ⟨h.1, ih h.2⟩

/-- Items that come one after another come one by one. -/
theorem exists_of_items {x : Except EngineError Expr} {xs : Except EngineError (List Expr)}
    (h : (do let c ← x; return c :: (← xs)) = .ok cs) :
    ∃ d ds, x = .ok d ∧ xs = .ok ds ∧ cs = d :: ds := by
  obtain _ | d := x
  · cases h
  obtain _ | ds := xs
  · cases h
  · cases h
    exact ⟨d, ds, rfl, rfl, rfl⟩

/-- A list of results comes from results. -/
theorem exists_of_map_list {xs : Except EngineError (List Expr)} (h : xs.map list = .ok c) :
    ∃ ds, xs = .ok ds ∧ c = list ds := by
  obtain _ | ds := xs
  · cases h
  · cases h
    exact ⟨ds, rfl, rfl⟩

/-- A comparison stays or is decided. -/
theorem foldCompare_eq_or (g : Relation) (a b : Expr) :
    foldCompare g a b = .compare g a b ∨ ∃ t, foldCompare g a b = .boolean t := by
  simp only [foldCompare]
  repeat' split
  all_goals first
    | exact .inl rfl
    | exact .inr ⟨_, rfl⟩

/-- A call gives one result whatever the warnings are, a number or the call itself. -/
theorem exists_gives_foldCall (name : String) (as : List Expr) :
    ∃ c, Gives (foldCall name as) c ∧ (c = .call name as ∨ c.isNumber = true) := by
  simp only [foldCall]
  split
  · exact ⟨_, .pure _, .inl rfl⟩
  · split
    · split
      · split
        · exact ⟨_, .pure _, .inr rfl⟩
        · split
          · exact ⟨_, .pure _, .inr rfl⟩
          · exact ⟨_, .pure _, .inl rfl⟩
      · exact ⟨_, (Gives.warn _).bind (.pure _), .inl rfl⟩
    · exact ⟨_, .pure _, .inl rfl⟩
    · exact ⟨_, (Gives.warn _).bind (.pure _), .inl rfl⟩
    · exact ⟨_, (Gives.warn _).bind (.pure _), .inl rfl⟩

/-! ## Names -/

/-- The names of symbols and calls have the property. -/
inductive Named (N : String → Prop) : Expr → Prop where
  | exact (q : Fraction) : Named N (.exact q)
  | real (x : Float) : Named N (.real x)
  | symbol {name : String} : N name → Named N (.symbol name)
  | boolean (t : Bool) : Named N (.boolean t)
  | neg {a : Expr} : Named N a → Named N (.neg a)
  | binary {f : Operation} {a b : Expr} : Named N a → Named N b → Named N (.binary f a b)
  | compare {g : Relation} {a b : Expr} : Named N a → Named N b → Named N (.compare g a b)
  | call {name : String} {as : List Expr} : N name → (∀ a ∈ as, Named N a) → Named N (.call name as)
  | list {as : List Expr} : (∀ a ∈ as, Named N a) → Named N (.list as)

mutual

/-- What all names have, the names of a tree have. -/
theorem named_of_forall {N : String → Prop} (h : ∀ name, N name) : ∀ e, Named N e
  | .exact q => .exact q
  | .real x => .real x
  | .symbol name => .symbol (h name)
  | .boolean t => .boolean t
  | .neg a => .neg (named_of_forall h a)
  | .binary _ a b => .binary (named_of_forall h a) (named_of_forall h b)
  | .compare _ a b => .compare (named_of_forall h a) (named_of_forall h b)
  | .call name as => .call (h name) (named_of_forall_mem h as)
  | .list as => .list (named_of_forall_mem h as)

/-- A property that all names have is had by all trees of a list. -/
theorem named_of_forall_mem {N : String → Prop} (h : ∀ name, N name) :
    ∀ as : List Expr, ∀ a ∈ as, Named N a
  | [] => List.forall_mem_nil _
  | a :: as => List.forall_mem_cons.mpr ⟨named_of_forall h a, named_of_forall_mem h as⟩

end

/-! ## Properties of trees -/

/-- Folds keep the property, on trees whose names have a property of their own. -/
structure Kept (N : String → Prop) (P : Expr → Prop) : Prop where
  /-- Numbers have it. -/
  number : ∀ {a}, a.isNumber = true → P a
  /-- Truth values have it. -/
  boolean : ∀ t, P (.boolean t)
  /-- Symbols have it. -/
  symbol : ∀ {name}, N name → P (.symbol name)
  /-- Negation keeps it. -/
  negate : ∀ {a}, P a → P a.negate
  /-- Lists share it with their items. -/
  list : ∀ {as}, P (.list as) ↔ ∀ a ∈ as, P a
  /-- An operation that stays has it. -/
  binary : ∀ {f a b}, P a → P b → foldBinary f a b = .ok (.binary f a b) → P (.binary f a b)
  /-- A comparison that stays has it. -/
  compare : ∀ {g a b}, P a → P b → foldCompare g a b = .compare g a b → P (.compare g a b)
  /-- A call that stays has it. -/
  call : ∀ {name as}, N name → (∀ a ∈ as, P a) → Gives (foldCall name as) (.call name as) →
    P (.call name as)

namespace Kept

variable {N : String → Prop} {P : Expr → Prop}

/-- An operation that stays is one that its own fold left alone. -/
theorem foldScalar (hP : Kept N P) (ha : P a) (hb : P b) (hsa : NoList a) (hsb : NoList b)
    (h : foldScalar f a b = .ok c) : P c := by
  cases outcome_foldScalar h with
  | left => exact ha
  | right => exact hb
  | negated => exact hP.negate hb
  | number hc => exact hP.number hc
  | symbolic => exact hP.binary ha hb (by rw [hsa.foldBinary_eq, hsb.foldRight_eq, h])

mutual

/-- Arithmetic of what is no list keeps the property, item by item. -/
theorem foldRight (hP : Kept N P) (ha : P a) (hsa : NoList a) :
    ∀ {b c : Expr}, P b → Expr.foldRight f a b = .ok c → P c := by
  intro b c hb h
  cases b with
  | list bs =>
    rw [Expr.foldRight] at h
    obtain ⟨cs, hcs, rfl⟩ := exists_of_map_list h
    exact hP.list.mpr (foldRightAll hP ha hsa (hP.list.mp hb) hcs)
  | _ =>
    rw [NoList.foldRight_eq (fun _ h => by cases h)] at h
    exact hP.foldScalar ha hb hsa (fun _ h => by cases h) h

/-- A fold with every item on the right keeps the property. -/
theorem foldRightAll (hP : Kept N P) (ha : P a) (hsa : NoList a) :
    ∀ {bs cs : List Expr}, (∀ b ∈ bs, P b) → Expr.foldRightAll f a bs = .ok cs →
      ∀ c ∈ cs, P c := by
  intro bs cs hbs h
  cases bs with
  | nil =>
    rw [Expr.foldRightAll] at h
    cases h
    exact List.forall_mem_nil _
  | cons b bs =>
    rw [List.forall_mem_cons] at hbs
    rw [Expr.foldRightAll] at h
    obtain ⟨d, ds, hd, hds, rfl⟩ := exists_of_items h
    exact List.forall_mem_cons.mpr
      ⟨foldRight hP ha hsa hbs.1 hd, foldRightAll hP ha hsa hbs.2 hds⟩

end

mutual

/-- Arithmetic keeps the property, item by item. -/
theorem foldBinary (hP : Kept N P) :
    ∀ {a b c : Expr}, P a → P b → Expr.foldBinary f a b = .ok c → P c := by
  intro a b c ha hb h
  cases a with
  | list as =>
    by_cases hlist : ∃ bs, b = .list bs
    · obtain ⟨bs, rfl⟩ := hlist
      rw [Expr.foldBinary] at h
      split at h
      · obtain ⟨cs, hcs, rfl⟩ := exists_of_map_list h
        exact hP.list.mpr (foldPairs hP (hP.list.mp ha) (hP.list.mp hb) hcs)
      · cases h
    · rw [Expr.foldBinary] at h
      · obtain ⟨cs, hcs, rfl⟩ := exists_of_map_list h
        exact hP.list.mpr (foldLeftAll hP (hP.list.mp ha) hb hcs)
      · exact fun bs hbs => hlist ⟨bs, hbs⟩
  | _ =>
    rw [NoList.foldBinary_eq (fun _ h => by cases h)] at h
    exact hP.foldRight ha (fun _ h => by cases h) hb h

/-- A fold of two lists pair by pair keeps the property. -/
theorem foldPairs (hP : Kept N P) :
    ∀ {as bs cs : List Expr}, (∀ a ∈ as, P a) → (∀ b ∈ bs, P b) →
      Expr.foldPairs f as bs = .ok cs → ∀ c ∈ cs, P c := by
  intro as bs cs has hbs h
  cases as with
  | nil =>
    cases h
    exact List.forall_mem_nil _
  | cons a as =>
    cases bs with
    | nil =>
      cases h
      exact List.forall_mem_nil _
    | cons b bs =>
      rw [List.forall_mem_cons] at has hbs
      rw [Expr.foldPairs] at h
      obtain ⟨d, ds, hd, hds, rfl⟩ := exists_of_items h
      exact List.forall_mem_cons.mpr
        ⟨foldBinary hP has.1 hbs.1 hd, foldPairs hP has.2 hbs.2 hds⟩

/-- A fold with every item on the left keeps the property. -/
theorem foldLeftAll (hP : Kept N P) :
    ∀ {as : List Expr} {b : Expr} {cs : List Expr}, (∀ a ∈ as, P a) → P b →
      Expr.foldLeftAll f as b = .ok cs → ∀ c ∈ cs, P c := by
  intro as b cs has hb h
  cases as with
  | nil =>
    rw [Expr.foldLeftAll] at h
    cases h
    exact List.forall_mem_nil _
  | cons a as =>
    rw [List.forall_mem_cons] at has
    rw [Expr.foldLeftAll] at h
    obtain ⟨d, ds, hd, hds, rfl⟩ := exists_of_items h
    exact List.forall_mem_cons.mpr
      ⟨foldBinary hP has.1 hb hd, foldLeftAll hP has.2 hb hds⟩

end

/-- A fold of a comparison keeps the property. -/
theorem foldCompare (hP : Kept N P) (ha : P a) (hb : P b) : P (Expr.foldCompare g a b) := by
  rcases foldCompare_eq_or g a b with h | ⟨t, h⟩
  · rw [h]
    exact hP.compare ha hb h
  · rw [h]
    exact hP.boolean t

/-- A fold of a call keeps the property. -/
theorem foldCall (hP : Kept N P) {name : String} {before after : List String} (hn : N name)
    (has : ∀ a ∈ as, P a) (h : (Expr.foldCall name as).run.run before = (.ok c, after)) : P c := by
  obtain ⟨d, hd, hcall⟩ := exists_gives_foldCall name as
  obtain rfl : d = c := Except.ok.inj ((hd before).symm.trans (congrArg Prod.fst h))
  rcases hcall with rfl | hnumber
  · exact hP.call hn has hd
  · exact hP.number hnumber

mutual

/-- Simplification gives trees with the property. -/
theorem simplify (hP : Kept N P) : ∀ {e c : Expr} {before after : List String}, Named N e →
    (Expr.simplify false e).run.run before = (.ok c, after) → P c
  | .neg a, _, _, _, hn, h => by
    cases hn with
    | neg hna =>
      rw [Expr.simplify] at h
      obtain ⟨_, _, _, h⟩ := exists_of_bind h
      obtain ⟨a', _, ha, h⟩ := exists_of_bind h
      cases h
      exact hP.negate (simplify hP hna ha)
  | .binary f a b, _, _, _, hn, h => by
    cases hn with
    | binary hna hnb =>
      rw [Expr.simplify] at h
      obtain ⟨_, _, _, h⟩ := exists_of_bind h
      obtain ⟨a', _, ha, h⟩ := exists_of_bind h
      obtain ⟨b', _, hb, h⟩ := exists_of_bind h
      refine hP.foldBinary (f := f) (simplify hP hna ha) (simplify hP hnb hb) ?_
      generalize Expr.foldBinary f a' b' = r at h ⊢
      cases r <;> cases h
      rfl
  | .compare g a b, _, _, _, hn, h => by
    cases hn with
    | compare hna hnb =>
      rw [Expr.simplify] at h
      obtain ⟨_, _, _, h⟩ := exists_of_bind h
      obtain ⟨a', _, ha, h⟩ := exists_of_bind h
      obtain ⟨b', _, hb, h⟩ := exists_of_bind h
      cases h
      exact hP.foldCompare (simplify hP hna ha) (simplify hP hnb hb)
  | .call name as, _, _, _, hn, h => by
    cases hn with
    | call hname hnas =>
      rw [Expr.simplify] at h
      obtain ⟨_, _, _, h⟩ := exists_of_bind h
      obtain ⟨as', _, has, h⟩ := exists_of_bind h
      exact hP.foldCall hname (simplifyAll hP hnas has) h
  | .list as, _, _, _, hn, h => by
    cases hn with
    | list hnas =>
      rw [Expr.simplify] at h
      obtain ⟨_, _, _, h⟩ := exists_of_bind h
      obtain ⟨as', _, has, h⟩ := exists_of_bind h
      cases h
      exact hP.list.mpr (simplifyAll hP hnas has)
  | .exact _, _, _, _, _, h => by
    cases h
    exact hP.number rfl
  | .real _, _, _, _, _, h => by
    cases h
    exact hP.number rfl
  | .symbol _, _, _, _, hn, h => by
    cases hn with
    | symbol hname =>
      cases h
      exact hP.symbol hname
  | .boolean t, _, _, _, _, h => by
    cases h
    exact hP.boolean t

/-- Simplification keeps the property of every tree of a list. -/
theorem simplifyAll (hP : Kept N P) : ∀ {es cs : List Expr} {before after : List String},
    (∀ e ∈ es, Named N e) → (Expr.simplifyAll false es).run.run before = (.ok cs, after) →
      ∀ c ∈ cs, P c
  | [], _, _, _, _, h => by
    rw [Expr.simplifyAll] at h
    cases h
    exact List.forall_mem_nil _
  | e :: es, _, _, _, hn, h => by
    rw [List.forall_mem_cons] at hn
    rw [Expr.simplifyAll] at h
    obtain ⟨c, _, hc, h⟩ := exists_of_bind h
    obtain ⟨cs, _, hcs, h⟩ := exists_of_bind h
    cases h
    exact List.forall_mem_cons.mpr ⟨simplify hP hn.1 hc, simplifyAll hP hn.2 hcs⟩

end

end Kept

/-! ## Names are kept -/

variable {N : String → Prop}

/-- Negation brings in no name. -/
theorem Named.negate (h : Named N a) : Named N (negate a) := by
  induction h with
  | exact q =>
    rw [Expr.negate]
    split
    · exact .exact _
    · exact .real _
  | real x => rw [Expr.negate]; exact .real _
  | symbol h => exact .neg (.symbol h)
  | boolean t => exact .neg (.boolean t)
  | neg h _ => rw [Expr.negate]; exact h
  | binary ha hb _ _ => exact .neg (.binary ha hb)
  | compare ha hb _ _ => exact .neg (.compare ha hb)
  | call h has _ => exact .neg (.call h has)
  | list _ ih => rw [Expr.negate]; exact .list (forall_mem_negateAll ih)

/-- What folds give has names of their operands only. -/
theorem named_kept (N : String → Prop) : Kept N (Named N) where
  number {a} h := by
    cases a with
    | exact q => exact .exact q
    | real x => exact .real x
    | _ => cases h
  boolean := .boolean
  symbol := .symbol
  negate := Named.negate
  list := ⟨fun h => by cases h; assumption, .list⟩
  binary ha hb _ := .binary ha hb
  compare ha hb _ := .compare ha hb
  call h has _ := .call h has

end Expr

end Reckoner
