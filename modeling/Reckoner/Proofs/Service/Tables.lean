import Mathlib.Data.List.Nodup
import Reckoner.Proofs.Service.Lockstep
import Reckoner.Proofs.Service.Tidiness
import Reckoner.Service.Dispatch

/-!
# Complete tables

A table can be built from the strategies for the eight shapes that are evaluated, in any order, and
from nothing else. What is wrong with other lists is reported in order: the first strategy that is
for blank texts or for a shape that another one before it is for, and without any of those the first
shape that no strategy is for. A complete table finds the strategy for each shape, so that its
results fail only with an interruption.
-/

namespace Reckoner.Service

/-! ## Failures of strategies -/

section

variable {σ α β : Type} (engine : Engine σ)

/-- The task fails only if it is interrupted. -/
def OnlyInterrupted (t : Task σ α) : Prop :=
  ∀ s e, (t.run.run s).1 = .error e → ∃ operation, e = .interrupted operation

namespace OnlyInterrupted

variable {t : Task σ α} {f : α → Task σ β}

protected theorem pure (a : α) : OnlyInterrupted (pure a : Task σ α) := by
  rintro s e ⟨⟩

/-- Tasks that only fail interrupted do so one after the other. -/
theorem bind (ht : OnlyInterrupted t) (hf : ∀ a, OnlyInterrupted (f a)) :
    OnlyInterrupted (t >>= f) := by
  intro s e h
  cases hrun : t.run.run s with
  | mk outcome s' =>
    cases outcome with
    | ok a =>
      rw [run_bind_of_ok hrun] at h
      exact hf a s' e h
    | error e' =>
      rw [run_bind_of_error hrun] at h
      cases h
      exact ht s _ (congrArg Prod.fst hrun)

end OnlyInterrupted

/-- A call to the pool fails at the gate. -/
theorem onlyInterrupted_inPool {call : Pool σ → Except Failure α × Pool σ}
    (h : ∀ p e, (call p).1 = .error e → ∃ operation, e = .interrupted operation) :
    OnlyInterrupted (inPool call) := by
  intro s e he
  rw [run_inPool] at he
  exact h s.pool e he

variable {engine}

/-- What the engine says is no failure of the run. -/
theorem Pool.interrupted_of_run {p : Pool σ} {operation : String}
    {call : σ → Except EngineError α × σ} {e : Failure}
    (h : (p.run engine operation call).1 = .error e) : e = .interrupted operation := by
  unfold run Gate.acquire at h
  cases hgate : p.gate.take? with
  | none =>
    rw [hgate] at h
    cases h
    rfl
  | some gate =>
    rw [hgate] at h
    cases h

/-- A computation fails only if it is interrupted. -/
theorem Pool.interrupted_of_compute {p : Pool σ} {operation text : String}
    {call : σ → Except EngineError Evaluation × σ} {e : Failure}
    (h : (p.compute engine operation text call).1 = .error e) : e = .interrupted operation := by
  unfold compute at h
  cases hrun : (p.run engine operation call).1 with
  | ok outcome =>
    dsimp only at h
    rw [hrun] at h
    cases h
  | error e' =>
    dsimp only at h
    rw [hrun] at h
    cases h
    exact interrupted_of_run hrun

/-- A result fails to be displayed only if that is interrupted. -/
theorem Pool.interrupted_of_display {p : Pool σ} {r : Evaluation} {e : Failure}
    (h : (p.display engine r).1 = .error e) : e = .interrupted "format_for_display" := by
  unfold display at h
  cases hrun : p.run engine "format_for_display" (engine.display r.text) with
  | mk outcome q =>
    rw [hrun] at h
    have hfirst := congrArg Prod.fst hrun
    cases outcome with
    | ok shown => cases shown <;> cases h
    | error e' =>
      cases h
      exact interrupted_of_run hfirst

variable (engine)

/-- A lookup fails only if its computation is interrupted. -/
theorem onlyInterrupted_lookup {key : Key} {compute : Task σ Call}
    (h : OnlyInterrupted compute) : OnlyInterrupted (lookup key compute) := by
  unfold lookup
  refine OnlyInterrupted.bind (fun _ _ h => by cases h) fun s => ?_
  refine OnlyInterrupted.bind ?_ fun found => fun _ _ h => by cases h
  unfold Store.getOrCompute
  split
  · exact .pure _
  · exact h.bind fun _ => .pure _

/-- Neither stored results nor failures of the engine are failures of a lookup. -/
theorem onlyInterrupted_ask (key : Key) : OnlyInterrupted (key.ask engine) := by
  refine onlyInterrupted_lookup (onlyInterrupted_inPool fun p e h => ?_)
  cases key with
  | evaluate | calculate | draw => exact ⟨_, Pool.interrupted_of_compute h⟩

/-- A display fails only if it is interrupted. -/
theorem onlyInterrupted_display (r : Evaluation) : OnlyInterrupted (display engine r) :=
  onlyInterrupted_inPool fun _ _ h => ⟨_, Pool.interrupted_of_display h⟩

/-- A strategy fails only if it is interrupted. -/
theorem Strategy.onlyInterrupted_run (text : String) (p : Parameters) (strategy : Strategy) :
    OnlyInterrupted (strategy.run engine text p) := by
  have hevaluate : OnlyInterrupted (evaluate engine text) :=
    onlyInterrupted_ask engine (.evaluate text)
  have hcalculate : OnlyInterrupted (calculate engine text p.places) :=
    onlyInterrupted_ask engine (.calculate text p.places)
  have hdrawing : OnlyInterrupted (drawing engine text p) :=
    (onlyInterrupted_ask engine (.draw _ _ _ _)).bind fun _ => .pure _
  cases strategy with
  | plot shape => exact hevaluate.bind fun _ => hdrawing.bind fun _ => .pure _
  | symbolic shape => exact hevaluate.bind fun _ => .pure _
  | display shape =>
    refine hevaluate.bind fun value => ?_
    split
    · exact .pure _
    · exact (onlyInterrupted_display engine value).bind fun _ => .pure _
  | numeric =>
    refine hevaluate.bind fun _ => ?_
    exact hcalculate.bind fun _ => hdrawing.bind fun _ => .pure _
  | assignment => exact .pure _

end

namespace Table

variable {strategies before rest : List Strategy} {s : Strategy} {e e' : Failure}

/-! ## Offending entries -/

/-- Behind earlier entries another one cannot be made, for the cause. -/
inductive Refuses (earlier : List Strategy) (s : Strategy) : Failure → Prop
  /-- It is for blank texts. -/
  | blank (h : s.shape = .blank) : Refuses earlier s forBlank
  /-- An earlier one is for the same shape. -/
  | repeated (h : s.shape ≠ .blank) (hmem : s.shape ∈ earlier.map Strategy.shape) :
    Refuses earlier s (duplicate s.shape)

/-- The entry at a place of the list cannot be made behind those before it. -/
def OffendsAt (strategies : List Strategy) (i : Nat) (e : Failure) : Prop :=
  ∃ s, strategies[i]? = some s ∧ Refuses (strategies.take i) s e

/-- The cause is that of the first entry that cannot be made. -/
def FirstOffence (strategies : List Strategy) (e : Failure) : Prop :=
  ∃ i, OffendsAt strategies i e ∧ ∀ j < i, ∀ e', ¬ OffendsAt strategies j e'

/-- The cause is the first shape in their usual order that no strategy is for. -/
def FirstGap (strategies : List Strategy) (e : Failure) : Prop :=
  ∃ (i : Nat) (shape : Shape), Shape.evaluable[i]? = some shape ∧
    shape ∉ strategies.map Strategy.shape ∧ e = missing shape ∧
    ∀ j < i, ∀ other, Shape.evaluable[j]? = some other → other ∈ strategies.map Strategy.shape

/-- An entry is refused for one cause. -/
theorem Refuses.unique (h : Refuses before s e) (h' : Refuses before s e') : e = e' := by
  cases h with
  | blank hblank =>
    cases h' with
    | blank => rfl
    | repeated hvisible => exact absurd hblank hvisible
  | repeated hvisible =>
    cases h' with
    | blank hblank => exact absurd hblank hvisible
    | repeated => rfl

/-- An entry offends for one cause. -/
theorem OffendsAt.unique {i : Nat} (h : OffendsAt strategies i e) (h' : OffendsAt strategies i e') :
    e = e' := by
  obtain ⟨s, hs, hrefuses⟩ := h
  obtain ⟨s', hs', hrefuses'⟩ := h'
  cases hs.symm.trans hs'
  exact hrefuses.unique hrefuses'

/-- There is one first offence at most. -/
theorem FirstOffence.unique (h : FirstOffence strategies e) (h' : FirstOffence strategies e') :
    e = e' := by
  obtain ⟨i, hi, hbefore⟩ := h
  obtain ⟨i', hi', hbefore'⟩ := h'
  obtain hlt | rfl | hlt := Nat.lt_trichotomy i i'
  · exact absurd hi (hbefore' i hlt e)
  · exact hi.unique hi'
  · exact absurd hi' (hbefore i' hlt e')

/-- There is one first gap at most. -/
theorem FirstGap.unique (h : FirstGap strategies e) (h' : FirstGap strategies e') : e = e' := by
  obtain ⟨i, shape, hi, hgap, rfl, hbefore⟩ := h
  obtain ⟨i', shape', hi', hgap', rfl, hbefore'⟩ := h'
  obtain hlt | rfl | hlt := Nat.lt_trichotomy i i'
  · exact absurd (hbefore' i hlt shape hi) hgap
  · cases hi.symm.trans hi'
    rfl
  · exact absurd (hbefore i' hlt shape' hi') hgap'

/-- Without offending entries no shape is there twice, and the blank one is not there. -/
theorem forall_not_offendsAt_iff :
    (∀ i e, ¬ OffendsAt strategies i e) ↔
      .blank ∉ strategies.map Strategy.shape ∧ (strategies.map Strategy.shape).Nodup := by
  constructor
  · intro h
    have hblank : .blank ∉ strategies.map Strategy.shape := by
      intro hmem
      obtain ⟨s, hs, hshape⟩ := List.mem_map.mp hmem
      obtain ⟨i, hi⟩ := List.mem_iff_getElem?.mp hs
      exact h i _ ⟨s, hi, .blank hshape⟩
    refine ⟨hblank, List.nodup_iff_getElem?_ne_getElem?.mpr fun i j hij hj heq => ?_⟩
    rw [List.length_map] at hj
    have hs : strategies[j]? = some strategies[j] := List.getElem?_eq_getElem hj
    have hvisible : strategies[j].shape ≠ .blank := by
      intro hshape
      exact hblank (List.mem_map.mpr ⟨_, List.getElem_mem hj, hshape⟩)
    refine h j _ ⟨_, hs, .repeated hvisible ?_⟩
    rw [List.mem_iff_getElem?]
    refine ⟨i, ?_⟩
    rw [List.map_take, List.getElem?_take_of_lt hij, heq, List.getElem?_map, hs]
    rfl
  · rintro ⟨hblank, hnodup⟩ i e ⟨s, hs, hrefuses⟩
    obtain ⟨hi, rfl⟩ := List.getElem?_eq_some_iff.mp hs
    cases hrefuses with
    | blank hshape => exact hblank (List.mem_map.mpr ⟨_, List.getElem_mem hi, hshape⟩)
    | repeated _ hmem =>
      have hparts : strategies.map Strategy.shape = (strategies.take i).map Strategy.shape ++
          strategies[i].shape :: (strategies.drop (i + 1)).map Strategy.shape := by
        rw [← List.map_cons, ← List.map_append, ← List.drop_eq_getElem_cons hi,
          List.take_append_drop]
      rw [hparts] at hnodup
      exact (List.nodup_append.mp hnodup).2.2 _ hmem _ (.head _) rfl

/-! ## Entering -/

/-- A table has a strategy for the shapes of its entries. -/
theorem isSome_get?_iff {shape : Shape} :
    ((⟨strategies⟩ : Table).get? shape).isSome = true ↔
      shape ∈ strategies.map Strategy.shape := by
  simp only [get?, List.find?_isSome, decide_eq_true_eq, List.mem_map]

/-- An entry is refused for a cause, or made at the end. -/
theorem enter_cases (before : List Strategy) (s : Strategy) :
    (∃ e, Refuses before s e ∧ (⟨before⟩ : Table).enter s = .error e) ∨
      (∀ e, ¬ Refuses before s e) ∧ (⟨before⟩ : Table).enter s = .ok ⟨before ++ [s]⟩ := by
  unfold enter
  by_cases hblank : s.shape = .blank
  · exact .inl ⟨_, .blank hblank, if_pos hblank⟩
  rw [if_neg hblank]
  by_cases hmem : s.shape ∈ before.map Strategy.shape
  · exact .inl ⟨_, .repeated hblank hmem, if_pos (isSome_get?_iff.mpr hmem)⟩
  · refine .inr ⟨fun e h => ?_, if_neg fun h => hmem (isSome_get?_iff.mp h)⟩
    cases h with
    | blank h => exact hblank h
    | repeated _ h => exact hmem h

/-- All entries are made, or the first one that cannot be made is reported; the entries of the table
stand in front. -/
theorem enterAll_cases (before rest : List Strategy) :
    (enterAll ⟨before⟩ rest = .ok ⟨before ++ rest⟩ ∧
      ∀ i, before.length ≤ i → ∀ e, ¬ OffendsAt (before ++ rest) i e) ∨
    ∃ e, enterAll ⟨before⟩ rest = .error e ∧
      ∃ i, before.length ≤ i ∧ OffendsAt (before ++ rest) i e ∧
        ∀ j, before.length ≤ j → j < i → ∀ e', ¬ OffendsAt (before ++ rest) j e' := by
  induction rest generalizing before with
  | nil =>
    refine .inl ⟨by rw [enterAll, List.append_nil], ?_⟩
    rintro i hi e ⟨s, hs, -⟩
    rw [List.append_nil, List.getElem?_eq_none hi] at hs
    cases hs
  | cons s rest ih =>
    have hhere (e : Failure) : OffendsAt (before ++ s :: rest) before.length e ↔
        Refuses before s e := by
      unfold OffendsAt
      rw [List.getElem?_append_right (Nat.le_refl _), Nat.sub_self, List.getElem?_cons_zero,
        List.take_left' rfl]
      exact ⟨fun ⟨_, h, hrefuses⟩ => Option.some.inj h ▸ hrefuses, fun h => ⟨s, rfl, h⟩⟩
    rcases enter_cases before s with ⟨e, hrefuses, henter⟩ | ⟨hfits, henter⟩
    · refine .inr ⟨e, by rw [enterAll, henter]; rfl, before.length, Nat.le_refl _, ?_, ?_⟩
      · exact (hhere e).mpr hrefuses
      · intro j hj hlt
        exact absurd hj (Nat.not_le_of_lt hlt)
    · have hnext : enterAll ⟨before⟩ (s :: rest) = enterAll ⟨before ++ [s]⟩ rest := by
        rw [enterAll, henter]
        rfl
      have hlist : before ++ [s] ++ rest = before ++ s :: rest := by
        rw [List.append_assoc, List.singleton_append]
      have hstep {j : Nat} (hj : before.length ≤ j) (hne : j ≠ before.length) :
          (before ++ [s]).length ≤ j := by
        rw [List.length_append, List.length_singleton]
        omega
      have ih := ih (before ++ [s])
      rw [hlist] at ih
      rw [hnext]
      have hbefore (i : Nat) (hi : before.length ≤ i) (e : Failure)
          (h : OffendsAt (before ++ s :: rest) i e) : (before ++ [s]).length ≤ i := by
        refine hstep hi ?_
        rintro rfl
        exact hfits e ((hhere e).mp h)
      rcases ih with ⟨hok, hnone⟩ | ⟨e, herror, i, hi, hoffends, hfirst⟩
      · exact .inl ⟨hok, fun i hi e h => hnone i (hbefore i hi e h) e h⟩
      · refine .inr ⟨e, herror, i, ?_, hoffends, fun j hj hlt e' h => ?_⟩
        · rw [List.length_append] at hi
          omega
        · exact hfirst j (hbefore j hj e' h) hlt e' h

/-! ## Building -/

/-- Some shape that is evaluated is the first that is missing, or none is. -/
theorem firstGap_cases (strategies : List Strategy) :
    (∃ shape, FirstGap strategies (missing shape) ∧
      Shape.evaluable.find? (fun shape => ((⟨strategies⟩ : Table).get? shape).isNone) =
        some shape) ∨
    (∀ shape ∈ Shape.evaluable, shape ∈ strategies.map Strategy.shape) ∧
      Shape.evaluable.find? (fun shape => ((⟨strategies⟩ : Table).get? shape).isNone) = none := by
  have hthere {shape : Shape}
      (h : ((⟨strategies⟩ : Table).get? shape).isNone = false) :
      shape ∈ strategies.map Strategy.shape := by
    rw [← isSome_get?_iff, ← Option.not_isNone, h, Bool.not_false]
  cases hfind : Shape.evaluable.find? fun shape =>
      ((⟨strategies⟩ : Table).get? shape).isNone with
  | none =>
    refine .inr ⟨fun shape hshape => hthere ?_, rfl⟩
    exact Bool.eq_false_iff.mpr (List.find?_eq_none.mp hfind shape hshape)
  | some shape =>
    obtain ⟨hnone, i, hi, hshape, hbefore⟩ := List.find?_eq_some_iff_getElem.mp hfind
    refine .inl ⟨shape, ⟨i, shape, ?_, fun hmem => ?_, rfl, fun j hj other hother => ?_⟩, rfl⟩
    · exact List.getElem?_eq_some_iff.mpr ⟨hi, hshape⟩
    · rw [← isSome_get?_iff] at hmem
      rw [Option.isNone_iff_eq_none] at hnone
      rw [hnone] at hmem
      cases hmem
    · obtain ⟨-, rfl⟩ := List.getElem?_eq_some_iff.mp hother
      exact hthere (Bool.not_eq_true' _ ▸ hbefore j hj)

/-- A list of strategies makes a table, has a first entry that cannot be made, or leaves a shape
out. -/
theorem make_cases (strategies : List Strategy) :
    (make strategies = .ok ⟨strategies⟩ ∧ (∀ i e, ¬ OffendsAt strategies i e) ∧
      ∀ shape ∈ Shape.evaluable, shape ∈ strategies.map Strategy.shape) ∨
    ∃ e, make strategies = .error e ∧ (FirstOffence strategies e ∨
      (∀ i e', ¬ OffendsAt strategies i e') ∧ FirstGap strategies e) := by
  unfold make
  rcases enterAll_cases [] strategies with ⟨hok, hnone⟩ | ⟨e, herror, i, -, hi, hfirst⟩
  · rw [List.nil_append] at hok hnone
    rw [hok]
    have hfree (i : Nat) (e : Failure) : ¬ OffendsAt strategies i e := hnone i (Nat.zero_le i) e
    rcases firstGap_cases strategies with ⟨shape, hgap, hfind⟩ | ⟨hall, hfind⟩
    · refine .inr ⟨missing shape, ?_, .inr ⟨hfree, hgap⟩⟩
      dsimp only [bind, Except.bind]
      rw [hfind]
    · refine .inl ⟨?_, hfree, hall⟩
      dsimp only [bind, Except.bind]
      rw [hfind]
      rfl
  · rw [List.nil_append] at hi hfirst
    rw [herror]
    exact .inr ⟨e, rfl, .inl ⟨i, hi, fun j hj => hfirst j (Nat.zero_le j) hj⟩⟩

/-- A table that was built has one strategy for a shape, which it finds. Its results fail only with
an interruption, so never for want of a strategy. -/
structure Serves (t : Table) (strategies : List Strategy) (shape : Shape) (s : Strategy) :
    Prop where
  /-- The strategy was given. -/
  mem : s ∈ strategies
  /-- It is for the shape. -/
  shape_eq : s.shape = shape
  /-- No other one is. -/
  unique : ∀ other ∈ strategies, other.shape = shape → other = s
  /-- The table finds it. -/
  get?_eq : t.get? shape = some s
  /-- It computes the results. -/
  dispatch_eq : ∀ {σ : Type} (engine : Engine σ) (text : String) (p : Parameters),
    t.dispatch engine shape text p = s.run engine text p
  /-- No strategy is missing. -/
  dispatch_ne : ∀ {σ : Type} (engine : Engine σ) (text : String) (p : Parameters)
    (service : Service σ) (other : Shape),
    ((t.dispatch engine shape text p).run.run service).1 ≠ .error (missing other)

/-- Where nothing offends each shape is served by its strategy. -/
theorem exists_serves (hfree : ∀ i e, ¬ OffendsAt strategies i e) {shape : Shape}
    (hshape : shape ∈ strategies.map Strategy.shape) :
    ∃ s, Serves ⟨strategies⟩ strategies shape s := by
  obtain ⟨-, hnodup⟩ := forall_not_offendsAt_iff.mp hfree
  obtain ⟨s, hs⟩ := Option.isSome_iff_exists.mp (isSome_get?_iff.mpr hshape)
  have hmem : s ∈ strategies := List.mem_of_find?_eq_some hs
  have hshape : s.shape = shape := by simpa using List.find?_some hs
  have hdispatch {σ : Type} (engine : Engine σ) (text : String) (p : Parameters) :
      (⟨strategies⟩ : Table).dispatch engine shape text p = s.run engine text p := by
    rw [dispatch, hs]
  refine ⟨s, hmem, hshape, fun other hother heq => ?_, hs, hdispatch, ?_⟩
  · exact List.inj_on_of_nodup_map hnodup hother hmem (heq.trans hshape.symm)
  · intro σ engine text p service other hmissing
    rw [hdispatch] at hmissing
    obtain ⟨operation, hinterrupted⟩ := s.onlyInterrupted_run engine text p service _ hmissing
    cases hinterrupted

/-- Every shape that is evaluated, once each, is what a list of strategies needs to make a table. -/
theorem perm_evaluable_iff :
    (strategies.map Strategy.shape).Perm Shape.evaluable ↔
      (∀ i e, ¬ OffendsAt strategies i e) ∧
        ∀ shape ∈ Shape.evaluable, shape ∈ strategies.map Strategy.shape := by
  rw [forall_not_offendsAt_iff]
  constructor
  · intro h
    refine ⟨⟨fun hblank => ?_, h.nodup_iff.mpr (by decide)⟩, fun shape => h.mem_iff.mpr⟩
    exact Shape.mem_evaluable.mp (h.mem_iff.mp hblank) rfl
  · rintro ⟨⟨hblank, hnodup⟩, hall⟩
    refine (List.perm_ext_iff_of_nodup hnodup (by decide)).mpr fun shape =>
      ⟨fun hmem => ?_, hall shape⟩
    refine Shape.mem_evaluable.mpr ?_
    rintro rfl
    exact hblank hmem

/-- Nothing is wrong with the complete lists. -/
theorem no_cause_of_complete (hfree : ∀ i e, ¬ OffendsAt strategies i e)
    (hall : ∀ shape ∈ Shape.evaluable, shape ∈ strategies.map Strategy.shape) :
    ¬ (FirstOffence strategies e ∨ (∀ i e', ¬ OffendsAt strategies i e') ∧
      FirstGap strategies e) := by
  rintro (⟨i, hi, -⟩ | ⟨-, i, shape, hi, hgap, -⟩)
  · exact hfree i e hi
  · exact hgap (hall shape (List.mem_of_getElem? hi))

/-- There is one cause at most: a gap counts without offending entries only. -/
theorem cause_unique
    (h : FirstOffence strategies e ∨ (∀ i e', ¬ OffendsAt strategies i e') ∧ FirstGap strategies e)
    (h' : FirstOffence strategies e' ∨
      (∀ i e, ¬ OffendsAt strategies i e) ∧ FirstGap strategies e') : e = e' := by
  rcases h with hfirst | ⟨hfree, hgap⟩
  · rcases h' with hfirst' | ⟨hfree', -⟩
    · exact hfirst.unique hfirst'
    · obtain ⟨i, hi, -⟩ := hfirst
      exact absurd hi (hfree' i e)
  · rcases h' with ⟨i, hi, -⟩ | ⟨-, hgap'⟩
    · exact absurd hi (hfree i e')
    · exact hgap.unique hgap'

/-- A table can be built from the complete lists of strategies, those with one strategy for each
shape that is evaluated, and then serves each of these shapes. Of any other list the first entry
that cannot be made is reported, or else the first shape that is missing. -/
theorem make_complete (strategies : List Strategy) :
    ((∃ t, make strategies = .ok t) ↔ (strategies.map Strategy.shape).Perm Shape.evaluable) ∧
    (∀ t, make strategies = .ok t → ∀ shape ∈ Shape.evaluable, ∃ s,
      t.Serves strategies shape s) ∧
    ∀ e, make strategies = .error e ↔ FirstOffence strategies e ∨
      (∀ i e', ¬ OffendsAt strategies i e') ∧ FirstGap strategies e := by
  rw [perm_evaluable_iff]
  rcases make_cases strategies with ⟨hok, hfree, hall⟩ | ⟨e, herror, hcause⟩
  · rw [hok]
    have hsome (e : Failure) : (Except.ok ⟨strategies⟩ : Except Failure Table) ≠ .error e := by
      rintro ⟨⟩
    refine ⟨⟨fun _ => ⟨hfree, hall⟩, fun _ => ⟨_, rfl⟩⟩, ?_, fun e =>
      ⟨fun h => absurd h (hsome e), ?_⟩⟩
    · rintro _ ⟨⟩ shape hshape
      exact exists_serves hfree (hall shape hshape)
    · exact fun hcause => absurd hcause (no_cause_of_complete hfree hall)
  · rw [herror]
    have hnone (t : Table) : (Except.error e : Except Failure Table) ≠ .ok t := by
      rintro ⟨⟩
    refine ⟨⟨fun h => h.elim fun t ht => absurd ht (hnone t), ?_⟩,
      fun t ht => absurd ht (hnone t), fun e' => ⟨?_, fun hcause' => ?_⟩⟩
    · rintro ⟨hfree, hall⟩
      exact absurd hcause (no_cause_of_complete hfree hall)
    · rintro ⟨⟩
      exact hcause
    · rw [cause_unique hcause hcause']

/-- The usual strategies in reverse order make a table that finds them. A list with a repetition in
front of a strategy for blank texts, and with gaps, is refused for the repetition. -/
theorem make_complete_reversed :
    (∃ t, make standardStrategies.reverse = .ok t ∧ ∃ s,
      t.Serves standardStrategies.reverse .vector s) ∧
    make [.numeric, .plot .numeric, .plot .blank] = .error (duplicate .numeric) := by
  obtain ⟨hmake, hserves, -⟩ := make_complete standardStrategies.reverse
  obtain ⟨-, -, herror⟩ := make_complete [.numeric, .plot .numeric, .plot .blank]
  obtain ⟨t, ht⟩ := hmake.mpr (by decide)
  refine ⟨⟨t, ht, hserves t ht .vector (by decide)⟩, ?_⟩
  refine (herror _).mpr (.inl ⟨1, ⟨_, rfl, .repeated (by decide) (by decide)⟩, ?_⟩)
  rintro j hj e ⟨s, hs, hrefuses⟩
  obtain rfl : j = 0 := by omega
  cases hs
  cases hrefuses with
  | blank h => cases h
  | repeated _ hmem => cases hmem

end Table

end Reckoner.Service
