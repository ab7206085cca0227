import Reckoner.Proofs.Engine.Folding

/-!
# Simplification keeps exact values

A run of the simplification that never falls back to an approximate number gives an expression
with the exact value of the one it started from. It fails nowhere, so an error of a run without
approximate numbers always stands for a missing value.
-/

namespace Reckoner

open Reckoner.Expr Quantity

namespace Reading

variable (r : Reading)

mutual

/-- Lists on the outside, and below them expressions that are worth numbers. -/
inductive Denotes : Expr → Quantity → Prop
  | scalar {e : Expr} {a : ℚ} (h : r.IsScalar e a) : Denotes e (.scalar a)
  | vector {es : List Expr} {vs : List Quantity} (h : DenotesAll es vs) :
      Denotes (.list es) (.vector vs)

/-- The same for several expressions. -/
inductive DenotesAll : List Expr → List Quantity → Prop
  | nil : DenotesAll [] []
  | cons {e : Expr} {es : List Expr} {v : Quantity} {vs : List Quantity} (h : Denotes e v)
      (hs : DenotesAll es vs) : DenotesAll (e :: es) (v :: vs)

end

variable {r} {f : Operation} {d e : Expr} {ds es : List Expr} {a : ℚ} {u v w : Quantity}
  {us vs ws : List Quantity}

mutual

/-- What denotes a value has it. -/
theorem Denotes.value : ∀ {e : Expr} {v : Quantity}, r.Denotes e v → r.quantity? e = some v
  | _, _, .scalar h => h.value
  | _, _, .vector h => by rw [quantity?, DenotesAll.value h, Option.map_some]

/-- Trees that denote values have them. -/
theorem DenotesAll.value : ∀ {es : List Expr} {vs : List Quantity}, r.DenotesAll es vs →
    r.quantities? es = some vs
  | _, _, .nil => rfl
  | _, _, .cons h hs => by
    simp only [quantities?, Denotes.value h, DenotesAll.value hs, Option.bind_eq_bind,
      Option.bind_some, Option.pure_def]

end

/-- There are as many values as trees. -/
theorem DenotesAll.length_eq (h : r.DenotesAll es vs) : es.length = vs.length := by
  induction es generalizing vs with
  | nil => cases h; rfl
  | cons e es ih =>
    cases h with
    | cons _ hs => rw [List.length_cons, List.length_cons, ih hs]

mutual

/-- The negated expression is worth the negated quantity. -/
theorem Denotes.negate : ∀ {e : Expr} {v : Quantity}, r.Denotes e v →
    isRealFree (negate e) = true → r.Denotes (Expr.negate e) v.neg
  | _, _, .scalar h, hf => .scalar (h.negate hf)
  | _, _, .vector h, hf => by
    rw [Expr.negate, isRealFree_list] at hf
    exact .vector (DenotesAll.negateAll h hf)

/-- Negated trees denote the negated values. -/
theorem DenotesAll.negateAll : ∀ {es : List Expr} {vs : List Quantity}, r.DenotesAll es vs →
    (negateAll es).all isRealFree = true → r.DenotesAll (Expr.negateAll es) (negAll vs)
  | _, _, .nil, _ => .nil
  | _, _, .cons h hs, hf => by
    rw [Expr.negateAll, List.all_cons, Bool.and_eq_true] at hf
    exact .cons (Denotes.negate h hf.1) (DenotesAll.negateAll hs hf.2)

end

/-! ## Arithmetic item by item -/

/-- The roots that an operation may look for are those of numbers that are not below zero. -/
def RootsNonneg (f : Operation) (d e : Expr) : Prop :=
  f = .power → ∀ p ∈ d.exacts, ∀ q ∈ e.exacts, q.isWhole ≠ true →
    PowerNonneg p.toFloat q.toFloat

/-- The roots of an item on the left are roots of the list. -/
theorem RootsNonneg.left (h : RootsNonneg f (.list ds) e) (hd : d ∈ ds) : RootsNonneg f d e :=
  fun hf p hp => h hf p (mem_exacts_list hd hp)

/-- The roots of an item on the right are roots of the list. -/
theorem RootsNonneg.right (h : RootsNonneg f d (.list es)) (he : e ∈ es) : RootsNonneg f d e :=
  fun hf p hp q hq => h hf p hp q (mem_exacts_list he hq)

/-- The outcome of a fold is a value, and the value of `u` unless it is approximate. -/
def Folds (r : Reading) (outcome : Except EngineError Expr) (u : Quantity) : Prop :=
  ∃ c, outcome = .ok c ∧ (isRealFree c = true → r.Denotes c u)

/-- The same for several folds. -/
def FoldsAll (r : Reading) (outcome : Except EngineError (List Expr)) (us : List Quantity) : Prop :=
  ∃ cs, outcome = .ok cs ∧ (cs.all isRealFree = true → r.DenotesAll cs us)

theorem FoldsAll.nil : FoldsAll r (.ok []) [] := ⟨[], rfl, fun _ => .nil⟩

/-- A folded item in front of folded items. -/
theorem FoldsAll.cons {x : Except EngineError Expr} {xs : Except EngineError (List Expr)}
    (h : Folds r x u) (hs : FoldsAll r xs us) :
    FoldsAll r (do let c ← x; return c :: (← xs)) (u :: us) := by
  obtain ⟨c, rfl, hc⟩ := h
  obtain ⟨cs, rfl, hcs⟩ := hs
  refine ⟨c :: cs, rfl, ?_⟩
  intro hf
  rw [List.all_cons, Bool.and_eq_true] at hf
  exact .cons (hc hf.1) (hcs hf.2)

/-- Folded items make up a folded list. -/
theorem FoldsAll.vector {xs : Except EngineError (List Expr)} (h : FoldsAll r xs us) :
    Folds r (xs.map .list) (.vector us) := by
  obtain ⟨cs, rfl, hcs⟩ := h
  refine ⟨.list cs, rfl, ?_⟩
  intro hf
  rw [isRealFree_list] at hf
  exact .vector (hcs hf)

mutual

/-- A number is combined with everything that a quantity is made of. -/
theorem foldRight_sound (hd : r.IsScalar d a) : ∀ {e : Expr} {w u : Quantity}, r.Denotes e w →
    liftRight (r.operate f) a w = some u → RootsNonneg f d e → Folds r (foldRight f d e) u
  | e, _, u, .scalar he, h, hroots => by
    rw [liftRight, Option.map_eq_some_iff] at h
    obtain ⟨c, hc, rfl⟩ := h
    have hfold : foldRight f d e = foldScalar f d e := by
      cases e with
      | list es => exact he.not_list.elim
      | _ => rw [foldRight]; exact nofun
    rw [hfold]
    obtain ⟨folded, hok, hfolded⟩ := foldScalar_sound hd he hc (by
      rintro hf p q rfl rfl hw
      exact hroots hf p (List.mem_singleton_self p) q (List.mem_singleton_self q) hw)
    exact ⟨folded, hok, fun hf => .scalar (hfolded hf)⟩
  | _, _, u, .vector hes, h, hroots => by
    rw [liftRight, Option.map_eq_some_iff] at h
    obtain ⟨us, hus, rfl⟩ := h
    rw [foldRight]
    exact (foldRightAll_sound hd hes hus fun e he => hroots.right he).vector

/-- A number on the left is folded with each item on the right. -/
theorem foldRightAll_sound (hd : r.IsScalar d a) : ∀ {es : List Expr} {ws us : List Quantity},
    r.DenotesAll es ws → liftRightAll (r.operate f) a ws = some us →
    (∀ e ∈ es, RootsNonneg f d e) → FoldsAll r (foldRightAll f d es) us
  | _, _, us, .nil, h, _ => by
    rw [liftRightAll] at h
    cases h
    exact .nil
  | _, _, us, .cons he hes, h, hroots => by
    simp only [liftRightAll, Option.bind_eq_bind, Option.bind_eq_some_iff] at h
    obtain ⟨u, hu, us, hus, h⟩ := h
    cases h
    rw [foldRightAll]
    rw [List.forall_mem_cons] at hroots
    exact .cons (foldRight_sound hd he hu hroots.1) (foldRightAll_sound hd hes hus hroots.2)

end

mutual

/-- Arithmetic gives what the values give together. -/
theorem foldBinary_sound : ∀ {d e : Expr} {v w u : Quantity}, r.Denotes d v → r.Denotes e w →
    lift (r.operate f) v w = some u → RootsNonneg f d e → Folds r (foldBinary f d e) u
  | d, e, _, _, u, .scalar hd, he, h, hroots => by
    rw [lift] at h
    have hfold : foldBinary f d e = foldRight f d e := by
      cases d with
      | list ds => exact hd.not_list.elim
      | _ => rw [foldBinary] <;> exact nofun
    rw [hfold]
    exact foldRight_sound hd he h hroots
  | .list ds, e, _, _, u, .vector hds, .scalar he, h, hroots => by
    rw [lift, Option.map_eq_some_iff] at h
    obtain ⟨us, hus, rfl⟩ := h
    have hfold : foldBinary f (.list ds) e = (foldLeftAll f ds e).map .list := by
      cases e with
      | list es => exact he.not_list.elim
      | _ => rw [foldBinary]; exact nofun
    rw [hfold]
    exact (foldLeftAll_sound hds he hus fun d hd => hroots.left hd).vector
  | .list ds, .list es, _, _, u, .vector hds, .vector hes, h, hroots => by
    rw [lift] at h
    split at h
    · rename_i hlength
      rw [Option.map_eq_some_iff] at h
      obtain ⟨us, hus, rfl⟩ := h
      rw [foldBinary, if_pos (by rw [hds.length_eq, hes.length_eq, hlength])]
      exact (foldPairs_sound hds hes hus fun d hd e he => (hroots.left hd).right he).vector
    · cases h

/-- Two lists are folded pair by pair. -/
theorem foldPairs_sound : ∀ {ds es : List Expr} {vs ws us : List Quantity},
    r.DenotesAll ds vs → r.DenotesAll es ws → liftPairs (r.operate f) vs ws = some us →
    (∀ d ∈ ds, ∀ e ∈ es, RootsNonneg f d e) → FoldsAll r (foldPairs f ds es) us
  | _, _, _, _, us, .nil, hes, h, _ => by
    rw [liftPairs] at h
    · cases h
      rw [foldPairs]
      · exact .nil
      · exact nofun
    · exact nofun
  | _, _, _, _, us, .cons hd hds, .nil, h, _ => by
    rw [liftPairs] at h
    · cases h
      rw [foldPairs]
      · exact .nil
      · exact nofun
    · exact nofun
  | _, _, _, _, us, .cons hd hds, .cons he hes, h, hroots => by
    simp only [liftPairs, Option.bind_eq_bind, Option.bind_eq_some_iff] at h
    obtain ⟨u, hu, us, hus, h⟩ := h
    cases h
    rw [foldPairs]
    have hhead := hroots _ List.mem_cons_self _ List.mem_cons_self
    exact .cons (foldBinary_sound hd he hu hhead) (foldPairs_sound hds hes hus fun d hd e he =>
      hroots d (List.mem_cons_of_mem _ hd) e (List.mem_cons_of_mem _ he))

/-- Each item on the left is folded with a number on the right. -/
theorem foldLeftAll_sound : ∀ {ds : List Expr} {e : Expr} {vs us : List Quantity} {b : ℚ},
    r.DenotesAll ds vs → r.IsScalar e b → liftLeftAll (r.operate f) vs b = some us →
    (∀ d ∈ ds, RootsNonneg f d e) → FoldsAll r (foldLeftAll f ds e) us
  | _, _, _, us, _, .nil, he, h, _ => by
    rw [liftLeftAll] at h
    cases h
    rw [foldLeftAll]
    exact .nil
  | _, _, _, us, _, .cons hd hds, he, h, hroots => by
    simp only [liftLeftAll, Option.bind_eq_bind, Option.bind_eq_some_iff] at h
    obtain ⟨u, hu, us, hus, h⟩ := h
    cases h
    rw [foldLeftAll]
    rw [List.forall_mem_cons] at hroots
    exact .cons (foldBinary_sound hd (.scalar he) hu hroots.1)
      (foldLeftAll_sound hds he hus hroots.2)

end

end Reading

/-! ## Runs -/

namespace Expr

/-- What a run that is not asked to stop gives, if it gives anything. -/
def simplified? (e : Expr) : Option Expr := ((simplify false e).run.run []).1.toOption

/-- No run within the run of the whole ends with an approximate number. -/
def staysExact (e : Expr) : Bool := e.parts.all fun d => d.simplified?.all isRealFree

/-- Bases and exponents from which a power may look for a root. -/
def rootsAt : Expr → List (Fraction × Fraction)
  | binary .power a b =>
    match a.simplified?, b.simplified? with
    | some a, some b =>
      a.exacts.flatMap fun p => (b.exacts.filter fun q => !q.isWhole).map fun q => (p, q)
    | _, _ => []
  | _ => []

/-- Bases and exponents from which a run may look for a root. -/
def roots (e : Expr) : List (Fraction × Fraction) := e.parts.flatMap rootsAt

end Expr

namespace Reading

/-- A computation gives a value and no warning. -/
def Returns {α : Type} (x : Run α) (a : α) : Prop :=
  ∀ warnings, x.run.run warnings = (.ok a, warnings)

theorem Returns.pure {α : Type} (a : α) : Returns (pure a) a := fun _ => rfl

/-- Results are returned one after the other, without a warning. -/
theorem Returns.bind {α β : Type} {x : Run α} {k : α → Run β} {a : α} {b : β} (h : Returns x a)
    (hk : Returns (k a) b) : Returns (x >>= k) b := by
  intro warnings
  rw [ExceptT.run_bind, StateT.run_bind, h warnings]
  exact hk warnings

theorem Returns.checkpoint : Returns (Run.checkpoint false) () := fun _ => rfl

/-- A result without an error is returned. -/
theorem Returns.ofExcept {α : Type} {x : Except EngineError α} {a : α} (h : x = .ok a) :
    Returns (Run.ofExcept x) a := by
  rw [h]
  exact fun _ => rfl

/-- What is returned is the simplified tree. -/
theorem Returns.simplified? {e e' : Expr} (h : Returns (simplify false e) e') :
    e.simplified? = some e' := by
  rw [Expr.simplified?, h []]
  rfl

/-- What is asked of a run, for a tree and with it for every tree within it. -/
structure Sane (e : Expr) : Prop where
  /-- Exact numbers are in lowest terms. -/
  lowest : e.Lowest
  /-- Nothing approximate comes up. -/
  staysExact : e.staysExact = true
  /-- Powers of doubles keep the sign. -/
  roots : ∀ t ∈ e.roots, PowerNonneg t.1.toFloat t.2.toFloat

/-- A tree is as sane as one that has all of its parts. -/
theorem Sane.mono {d e : Expr} (h : Sane e) (hd : ∀ c ∈ d.parts, c ∈ e.parts) : Sane d where
  lowest q hq := by
    rw [exacts, List.mem_filterMap] at hq
    obtain ⟨c, hc, hq⟩ := hq
    exact h.lowest q (List.mem_filterMap.mpr ⟨c, hd c hc, hq⟩)
  staysExact := by
    have hs := h.staysExact
    rw [Expr.staysExact, List.all_eq_true] at hs ⊢
    exact fun c hc => hs c (hd c hc)
  roots t ht := by
    rw [Expr.roots, List.mem_flatMap] at ht
    obtain ⟨c, hc, ht⟩ := ht
    exact h.roots t (List.mem_flatMap.mpr ⟨c, hd c hc, ht⟩)

/-- A part of an item is a part of the list. -/
theorem mem_partsAll {c d : Expr} {es : List Expr} (hd : d ∈ es) (hc : c ∈ d.parts) :
    c ∈ partsAll es := by
  induction es with
  | nil => cases hd
  | cons e es ih =>
    rw [partsAll, List.mem_append]
    rcases List.mem_cons.mp hd with rfl | hd
    · exact .inl hc
    · exact .inr (ih hd)

/-- A run that gives something gives nothing approximate. -/
theorem Sane.isRealFree {e e' : Expr} (h : Sane e) (hr : Returns (simplify false e) e') :
    isRealFree e' = true := by
  have hs := h.staysExact
  rw [Expr.staysExact, List.all_eq_true] at hs
  have he := hs e (mem_parts_self e)
  rwa [hr.simplified?] at he

/-- The operands of a sane operation are simplified to operands whose roots have no minus. -/
theorem Sane.rootsNonneg {f : Operation} {a b a' b' : Expr} (h : Sane (.binary f a b))
    (ha : Returns (simplify false a) a') (hb : Returns (simplify false b) b') :
    RootsNonneg f a' b' := by
  rintro rfl p hp q hq hw
  refine h.roots (p, q) (List.mem_flatMap.mpr ⟨_, mem_parts_self _, ?_⟩)
  simp only [rootsAt, ha.simplified?, hb.simplified?, List.mem_flatMap, List.mem_map,
    List.mem_filter]
  exact ⟨p, hp, q, ⟨hq, by simpa only [Bool.not_eq_true', Bool.not_eq_true] using hw⟩, rfl⟩

variable {r : Reading}

mutual

/-- Simplification gives an expression with the value of the original, and no error. -/
theorem simplify_sound : ∀ {e : Expr} {v : Quantity}, r.quantity? e = some v → Sane e →
    ∃ e', Returns (simplify false e) e' ∧ r.Denotes e' v
  | .exact q, v, h, hs => by
    have hq : r.Denotes (.exact q) v := by
      rw [quantity?] at h
      cases h
      exact .scalar ⟨by rw [quantity?], hs.lowest⟩
    rw [simplify]
    · exact ⟨_, Returns.checkpoint.bind (.pure _), hq⟩
    all_goals exact nofun
  | .symbol name, v, h, hs => by
    have hq : r.Denotes (.symbol name) v := by
      rw [quantity?] at h
      cases h
      exact .scalar ⟨by rw [quantity?], hs.lowest⟩
    rw [simplify]
    · exact ⟨_, Returns.checkpoint.bind (.pure _), hq⟩
    all_goals exact nofun
  | .neg a, v, h, hs => by
    rw [quantity?, Option.map_eq_some_iff] at h
    obtain ⟨w, hw, rfl⟩ := h
    obtain ⟨a', ha, hd⟩ := simplify_sound hw (hs.mono fun c hc => by
      rw [parts]
      exact List.mem_cons_of_mem _ hc)
    have hrun : Returns (simplify false (.neg a)) (negate a') := by
      rw [simplify]
      exact Returns.checkpoint.bind (ha.bind (.pure _))
    exact ⟨_, hrun, hd.negate (hs.isRealFree hrun)⟩
  | .binary f a b, v, h, hs => by
    simp only [quantity?, Option.bind_eq_bind, Option.bind_eq_some_iff] at h
    obtain ⟨va, hva, vb, hvb, h⟩ := h
    obtain ⟨a', ha, hda⟩ := simplify_sound hva (hs.mono fun c hc => by
      rw [parts]
      exact List.mem_cons_of_mem _ (List.mem_append_left _ hc))
    obtain ⟨b', hb, hdb⟩ := simplify_sound hvb (hs.mono fun c hc => by
      rw [parts]
      exact List.mem_cons_of_mem _ (List.mem_append_right _ hc))
    obtain ⟨e', hfold, hd⟩ := foldBinary_sound hda hdb h (hs.rootsNonneg ha hb)
    have hrun : Returns (simplify false (.binary f a b)) e' := by
      rw [simplify]
      exact Returns.checkpoint.bind (ha.bind (hb.bind (.ofExcept hfold)))
    exact ⟨e', hrun, hd (hs.isRealFree hrun)⟩
  | .list es, v, h, hs => by
    rw [quantity?, Option.map_eq_some_iff] at h
    obtain ⟨vs, hvs, rfl⟩ := h
    obtain ⟨es', hes, hds⟩ := simplifyAll_sound hvs fun e he => hs.mono fun c hc => by
      rw [parts]
      exact List.mem_cons_of_mem _ (mem_partsAll he hc)
    refine ⟨.list es', ?_, .vector hds⟩
    rw [simplify]
    exact Returns.checkpoint.bind (hes.bind (.pure _))
  | .real _, _, h, _ | .boolean _, _, h, _ | .compare .., _, h, _ | .call .., _, h, _ => by
    rw [quantity?] at h
    cases h

/-- Trees with values are simplified to trees that denote them. -/
theorem simplifyAll_sound : ∀ {es : List Expr} {vs : List Quantity}, r.quantities? es = some vs →
    (∀ e ∈ es, Sane e) → ∃ es', Returns (simplifyAll false es) es' ∧ r.DenotesAll es' vs
  | [], vs, h, _ => by
    rw [quantities?] at h
    cases h
    exact ⟨[], Returns.pure [], .nil⟩
  | e :: es, vs, h, hs => by
    simp only [quantities?, Option.bind_eq_bind, Option.bind_eq_some_iff] at h
    obtain ⟨v, hv, vs', hvs, h⟩ := h
    cases h
    rw [List.forall_mem_cons] at hs
    obtain ⟨e', he, hd⟩ := simplify_sound hv hs.1
    obtain ⟨es', hes, hds⟩ := simplifyAll_sound hvs hs.2
    refine ⟨e' :: es', ?_, .cons hd hds⟩
    rw [simplifyAll]
    exact he.bind (hes.bind (.pure _))

end

/-- Simplification keeps the exact value and fails on nothing that has one, as long as nothing
approximate comes up in the run and powers of doubles are not below zero over such bases. -/
theorem simplify_keeps_value (r : Reading) {e : Expr} {v : Quantity}
    (hv : r.quantity? e = some v) (hlowest : e.Lowest) (hexact : e.staysExact = true)
    (hpow : ∀ t ∈ e.roots, PowerNonneg t.1.toFloat t.2.toFloat) (warnings : List String) :
    ∃ e', (simplify false e).run.run warnings = (.ok e', warnings) ∧ r.quantity? e' = some v := by
  obtain ⟨e', hrun, hd⟩ := simplify_sound hv ⟨hlowest, hexact, hpow⟩
  exact ⟨e', hrun warnings, hd.value⟩

/-- The natural root of a natural number. -/
noncomputable def naturalRoot (a b : ℚ) : Option ℚ :=
  open Classical in
  if h : ∃ c : ℕ, (c : ℚ) ^ b.den = a ^ b.num then some ((h.choose : ℕ) : ℚ)
  else none

/-- Every symbol has the same value, and roots are natural. -/
noncomputable def uniform (a : ℚ) : Reading where
  symbol _ := a
  root := naturalRoot
  root_natural m c b hb hdef hroot := by
    have hex : ∃ c : ℕ, (c : ℚ) ^ b.den = (m : ℚ) ^ b.num := ⟨c, hroot⟩
    have heq : ((hex.choose : ℕ) : ℚ) = c :=
      (pow_left_inj₀ (Nat.cast_nonneg _) (Nat.cast_nonneg _) b.den_nz).mp
        (hex.choose_spec.trans hroot.symm)
    rw [naturalRoot, dif_pos hex, heq]

theorem simplify_keeps_value_list :
    ∃ e', (simplify false (.list [.binary .divide (.symbol "x") (.symbol "x"),
        .neg (.binary .add (.exact ⟨1, 2⟩) (.exact ⟨1, 3⟩)),
        .binary .power (.binary .add (.symbol "x") (.exact ⟨0, 1⟩)) (.exact ⟨3, 1⟩)])).run.run [] =
          (.ok e', []) ∧
      (uniform 2).quantity? e' = some (.vector [.scalar 1, .scalar (-5 / 6), .scalar 8]) := by
  refine simplify_keeps_value (uniform 2) ?_ ?_ (by decide +kernel) ?_ []
  · simp [quantity?, quantities?, uniform, operate, lift, liftRight, Quantity.neg, Fraction.value]
    norm_num
  · simp only [Lowest, exacts, parts, partsAll, List.filterMap, exactValue?,
      List.nil_append, List.append_nil, List.cons_append, List.forall_mem_cons]
    exact ⟨⟨by decide, by decide⟩, ⟨by decide, by decide⟩, ⟨by decide, by decide⟩,
      ⟨by decide, by decide⟩, List.forall_mem_nil _⟩
  · have hnone : roots (.list [.binary .divide (.symbol "x") (.symbol "x"),
        .neg (.binary .add (.exact ⟨1, 2⟩) (.exact ⟨1, 3⟩)),
        .binary .power (.binary .add (.symbol "x") (.exact ⟨0, 1⟩)) (.exact ⟨3, 1⟩)]) = [] := by
      decide +kernel
    rw [hnone]
    exact List.forall_mem_nil _

end Reading

end Reckoner
