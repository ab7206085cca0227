import Mathlib.Data.List.Perm.Basic
import Reckoner.Proofs.Service.Concurrent.Tokens
import Reckoner.Proofs.Service.Tidiness
import Reckoner.Service.Concurrent.Workshop

/-!
# Engines under every interleaving

Whatever order calls move in, every engine is in one place: it is idle, or one call has it. A call
that found no idle engine makes its own only later, so the engines still to be made are counted
together with those there are; both together never exceed the tokens. Who has an engine alone
decides what happens to it, except that anyone may ask it to stop: it is as good as new when its
run begins, and a request to stop that comes during the run lasts as long as the run.
-/

namespace Reckoner.Service.Concurrent

variable {σ : Type} {engine : Engine σ}

namespace Stage

/-- The engine that the call has used and not yet put back. -/
def used? : Stage → Option Nat
  | running n | finished n => some n
  | outside | admitted | emptyHanded | handed _ | ready _ | relieved => none

/-- The call is about to make an engine. -/
def isEmptyHanded : Stage → Bool
  | emptyHanded => true
  | outside | admitted | handed _ | ready _ | running _ | finished _ | relieved => false

/-- A call has the engine that it has used. -/
theorem engine?_of_used? {stage : Stage} {n : Nat} (h : stage.used? = some n) :
    stage.engine? = some n := by
  cases stage with
  | running m | finished m => exact h
  | outside | admitted | emptyHanded | handed _ | ready _ | relieved => cases h

end Stage

namespace Workshop

variable {w v : Workshop σ} {turn : Turn σ} {turns : List (Turn σ)} {capacity i n : Nat}

/-! ## What a turn does -/

/-- What a call can do: its turn, how far it had got and how far it has got then, and the workshop
that it leaves behind. -/
inductive Deed (engine : Engine σ) (w : Workshop σ) (i : Nat) :
    Turn σ → Stage → Stage → Workshop σ → Prop
  /-- It takes a token. -/
  | enter {gate : Gate} (h : w.gate.take? = some gate) :
      Deed engine w i (.enter i) .outside .admitted { w with gate }
  /-- It takes the engine used last. -/
  | take {n : Nat} {idle : List Nat} (h : w.idle = n :: idle) :
      Deed engine w i (.pick i) .admitted (.handed n) { w with idle }
  /-- It finds no idle engine. -/
  | miss (h : w.idle = []) : Deed engine w i (.pick i) .admitted .emptyHanded w
  /-- It makes an engine. -/
  | build : Deed engine w i (.build i) .emptyHanded (.handed w.engines.length)
      { w with engines := w.engines ++ [engine.fresh] }
  /-- It takes back earlier requests to stop. -/
  | clear {n : Nat} : Deed engine w i (.clear i) (.handed n) (.ready n)
      { w with engines := w.engines.modify n engine.clearStop }
  /-- Its run begins. -/
  | start {n : Nat} : Deed engine w i (.start i) (.ready n) (.running n) w
  /-- Its run ends. -/
  | finish {n : Nat} {effect : σ → σ} :
    Deed engine w i (.finish i effect) (.running n) (.finished n)
      { w with engines := w.engines.modify n effect }
  /-- It puts its engine back. -/
  | putBack {n : Nat} : Deed engine w i (.putBack i) (.finished n) .relieved
      { w with engines := w.engines.modify n engine.reset, idle := n :: w.idle }
  /-- It gives its token back. -/
  | leave : Deed engine w i (.leave i) .relieved .outside { w with gate := w.gate.release }

/-- A turn asks all engines to stop, or is the deed of one call. -/
theorem deed_of_step (h : w.step engine turn = some v) :
    (turn = .requestStop ∧ v = { w with gate := w.gate.interrupt,
                                        engines := w.engines.map engine.requestStop }) ∨
      ∃ i old new u, w.calls[i]? = some old ∧ Deed engine w i turn old new u ∧
        v = u.place i new := by
  cases turn with
  | requestStop =>
    cases h
    exact .inl ⟨rfl, rfl⟩
  | enter i =>
    unfold step at h
    dsimp only at h
    split at h
    · obtain ⟨gate, hgate, rfl⟩ := Option.map_eq_some_iff.mp h
      exact .inr ⟨i, _, _, _, ‹_›, .enter hgate, rfl⟩
    · cases h
  | pick i =>
    unfold step at h
    dsimp only at h
    split at h
    · split at h
      · cases h
        exact .inr ⟨i, _, _, _, ‹_›, .take ‹_›, rfl⟩
      · cases h
        exact .inr ⟨i, _, _, _, ‹_›, .miss ‹_›, rfl⟩
    · cases h
  | build i =>
    unfold step at h
    dsimp only at h
    split at h
    · cases h
      exact .inr ⟨i, _, _, _, ‹_›, .build, rfl⟩
    · cases h
  | clear i =>
    unfold step at h
    dsimp only at h
    split at h
    · cases h
      exact .inr ⟨i, _, _, _, ‹_›, .clear, rfl⟩
    · cases h
  | start i =>
    unfold step at h
    dsimp only at h
    split at h
    · cases h
      exact .inr ⟨i, _, _, _, ‹_›, .start, rfl⟩
    · cases h
  | finish i effect =>
    unfold step at h
    dsimp only at h
    split at h
    · cases h
      exact .inr ⟨i, _, _, _, ‹_›, .finish, rfl⟩
    · cases h
  | putBack i =>
    unfold step at h
    dsimp only at h
    split at h
    · cases h
      exact .inr ⟨i, _, _, _, ‹_›, .putBack, rfl⟩
    · cases h
  | leave i =>
    unfold step at h
    dsimp only at h
    split at h
    · cases h
      exact .inr ⟨i, _, _, _, ‹_›, .leave, rfl⟩
    · cases h

/-- A call that has got far enough can do its deed. -/
theorem step_of_deed {old new : Stage} {u : Workshop σ} (hi : w.calls[i]? = some old)
    (h : Deed engine w i turn old new u) : w.step engine turn = some (u.place i new) := by
  cases h with
  | enter h | take h | miss h => simp only [step, hi, h, Option.map_some]
  | build | clear | start | finish | putBack | leave => simp only [step, hi]

/-- Turns lead somewhere one after another. -/
theorem run_cons : w.run engine (turn :: turns) = some v ↔
    ∃ u, w.step engine turn = some u ∧ u.run engine turns = some v :=
  Option.bind_eq_some_iff

/-- No deed moves another call. -/
theorem Deed.calls_eq {old new : Stage} {u : Workshop σ} (h : Deed engine w i turn old new u) :
    u.calls = w.calls := by
  cases h <;> rfl

/-! ## Where engines are -/

/-- The engines that calls have. -/
def held (w : Workshop σ) : List Nat := w.calls.filterMap Stage.engine?

/-- The number of calls with a token. -/
def tokens (w : Workshop σ) : Nat := w.calls.countP Stage.hasToken

/-- The number of engines that calls are about to make. -/
def awaited (w : Workshop σ) : Nat := w.calls.countP Stage.isEmptyHanded

/-- Calls at a new gate, none of which has been let in. -/
def opened (gate : Gate) : Nat → Workshop σ
  | 0 => ofGate gate
  | calls + 1 => (opened gate calls).join

/-- Every engine is in one place, tokens are neither lost nor made, the engines there are and those
about to be made do not exceed the tokens, and an engine that no call has used is as good as new. -/
structure Orderly (engine : Engine σ) (capacity : Nat) (w : Workshop σ) : Prop where
  /-- The capacity does not change. -/
  capacity_eq : w.gate.capacity = capacity
  /-- A token is free, or a call has it. -/
  total : w.gate.free + w.tokens = capacity
  /-- An engine is idle, or one call has it. -/
  placed : (w.idle ++ w.held).Perm (List.range w.engines.length)
  /-- There is a token for every engine, also for those to come. -/
  room : w.engines.length + w.awaited ≤ capacity
  /-- Only an engine in use is not as good as new. -/
  rested : ∀ n s, w.engines[n]? = some s → engine.clearStop s = engine.fresh ∨
    ∃ (i : Nat) (stage : Stage), w.calls[i]? = some stage ∧ stage.used? = some n

/-- A call that has not been let in has nothing. -/
theorem Orderly.join (h : w.Orderly engine capacity) : w.join.Orderly engine capacity := by
  have htokens : w.join.tokens = w.tokens := by
    rw [tokens, Workshop.join, List.countP_append]
    rfl
  have hawaited : w.join.awaited = w.awaited := by
    rw [awaited, Workshop.join, List.countP_append]
    rfl
  have hheld : w.join.held = w.held := by
    rw [held, Workshop.join, List.filterMap_append]
    exact List.append_nil _
  refine ⟨h.capacity_eq, htokens ▸ h.total, ?_, hawaited ▸ h.room, fun n s hs => ?_⟩
  · rw [hheld]
    exact h.placed
  · rcases h.rested n s hs with hclean | ⟨i, stage, hi, hused⟩
    · exact .inl hclean
    · have hlt : i < w.calls.length := (List.getElem?_eq_some_iff.mp hi).1
      refine .inr ⟨i, stage, ?_, hused⟩
      rw [Workshop.join, List.getElem?_append_left hlt]
      exact hi

/-- A new workshop is orderly. -/
theorem orderly_opened (interruptions : UInt64) (calls : Nat) :
    (opened ⟨capacity, capacity, interruptions⟩ calls).Orderly engine capacity := by
  induction calls with
  | zero => exact ⟨rfl, rfl, .refl _, Nat.zero_le _, nofun⟩
  | succ calls ih => exact ih.join

/-! ## A call that gets somewhere else -/

section

variable {old : Stage} (u : Workshop σ) (h : u.calls[i]? = some old) (new : Stage)

include h

private theorem exists_calls : ∃ before behind, u.calls = before ++ old :: behind ∧
    (u.place i new).calls = before ++ new :: behind := by
  obtain ⟨hi, rfl⟩ := List.getElem?_eq_some_iff.mp h
  refine ⟨u.calls.take i, u.calls.drop (i + 1), ?_, ?_⟩
  · rw [← List.drop_eq_getElem_cons hi, List.take_append_drop]
  · exact List.set_eq_take_append_cons_drop.trans (if_pos hi)

/-- What a call gets and what it gives away make up for the difference. -/
theorem held_place : (old.engine?.toList ++ (u.place i new).held).Perm
    (new.engine?.toList ++ u.held) := by
  obtain ⟨before, behind, hcalls, hplaced⟩ := exists_calls u h new
  have hheld {stage : Stage} : (before ++ stage :: behind).filterMap Stage.engine? =
      before.filterMap Stage.engine? ++
        (stage.engine?.toList ++ behind.filterMap Stage.engine?) := by
    rw [List.filterMap_append, List.filterMap_cons]
    cases stage.engine? <;> rfl
  rw [held, held, hcalls, hplaced, hheld, hheld]
  rw [List.perm_iff_count]
  intro x
  simp only [List.count_append]
  omega

/-- A call that goes on changes the tokens by its own. -/
theorem tokens_place :
    (u.place i new).tokens + old.hasToken.toNat = u.tokens + new.hasToken.toNat := by
  obtain ⟨before, behind, hcalls, hplaced⟩ := exists_calls u h new
  rw [tokens, tokens, hcalls, hplaced]
  simp only [List.countP_append, List.countP_cons]
  cases old.hasToken <;> cases new.hasToken <;> simp <;> omega

/-- A call that goes on changes the engines to come by its own. -/
theorem awaited_place : (u.place i new).awaited + old.isEmptyHanded.toNat =
    u.awaited + new.isEmptyHanded.toNat := by
  obtain ⟨before, behind, hcalls, hplaced⟩ := exists_calls u h new
  rw [awaited, awaited, hcalls, hplaced]
  simp only [List.countP_append, List.countP_cons]
  cases old.isEmptyHanded <;> cases new.isEmptyHanded <;> simp <;> omega

/-- The call has got as far as it was placed. -/
theorem calls_place_self : (u.place i new).calls[i]? = some new :=
  List.getElem?_set_self (List.getElem?_eq_some_iff.mp h).1

end

/-- The other calls stay where they are. -/
theorem calls_place_ne (u : Workshop σ) {j : Nat} (h : i ≠ j) (new : Stage) :
    (u.place i new).calls[j]? = u.calls[j]? := List.getElem?_set_ne h

/-- A call that has an engine, or is about to make one, has a token. -/
theorem length_held_le (w : Workshop σ) : w.held.length + w.awaited ≤ w.tokens := by
  unfold held awaited tokens
  induction w.calls with
  | nil => exact Nat.le_refl 0
  | cons stage rest ih =>
    have hlength : ((stage :: rest).filterMap Stage.engine?).length =
        stage.engine?.toList.length + (rest.filterMap Stage.engine?).length := by
      rw [List.filterMap_cons]
      cases stage.engine? with
      | none => exact (Nat.zero_add _).symm
      | some n => exact Nat.add_comm _ 1
    have hstage : stage.engine?.toList.length + stage.isEmptyHanded.toNat ≤
        stage.hasToken.toNat := by
      cases stage <;> simp [Stage.engine?, Stage.isEmptyHanded, Stage.hasToken]
    have hcount (p : Stage → Bool) :
        (stage :: rest).countP p = rest.countP p + (p stage).toNat := by
      rw [List.countP_cons]
      cases p stage <;> rfl
    rw [hlength, hcount, hcount]
    omega

/-! ## What a deed changes -/

namespace Deed

variable {old new : Stage} {u : Workshop σ}

/-- A token stays on one side or the other. -/
theorem tokens (h : Deed engine w i turn old new u)
    (hout : old.hasToken = true → w.gate.free < w.gate.capacity) :
    u.gate.capacity = w.gate.capacity ∧
      u.gate.free + new.hasToken.toNat = w.gate.free + old.hasToken.toNat := by
  cases h with
  | enter h =>
    refine ⟨Gate.capacity_of_take? h, ?_⟩
    exact Gate.free_of_take? h
  | leave =>
    refine ⟨rfl, ?_⟩
    exact Gate.free_release (hout rfl)
  | _ => exact ⟨rfl, rfl⟩

/-- An engine goes from one place to another, and a new one is put in one place. -/
theorem placed (h : Deed engine w i turn old new u) :
    ∃ made, List.range u.engines.length = List.range w.engines.length ++ made ∧
      (u.idle ++ new.engine?.toList).Perm ((w.idle ++ old.engine?.toList) ++ made) := by
  cases h with
  | build =>
    refine ⟨[w.engines.length], ?_, ?_⟩
    · rw [List.length_append]
      exact List.range_succ
    · simp [Stage.engine?]
  | take hidle => exact ⟨[], by simp, by simp [Stage.engine?, hidle, List.perm_append_singleton]⟩
  | @putBack n =>
    have hfront : (n :: w.idle).Perm (w.idle ++ [n]) := (List.perm_append_singleton n w.idle).symm
    exact ⟨[], by simp, by simp [Stage.engine?, hfront]⟩
  | enter | miss | clear | start | finish | leave =>
    exact ⟨[], by simp, by simp [Stage.engine?]⟩

/-- Only a call that finds no idle engine is about to make one. -/
theorem room (h : Deed engine w i turn old new u) :
    u.engines.length + new.isEmptyHanded.toNat ≤ w.engines.length + old.isEmptyHanded.toNat ∨
      u.idle = [] := by
  cases h with
  | miss hidle => exact .inr hidle
  | build =>
    refine .inl ?_
    rw [List.length_append]
    exact Nat.le_refl _
  | clear | finish | putBack =>
    refine .inl ?_
    rw [List.length_modify]
    exact Nat.le_refl _
  | enter | take | start | leave => exact .inl (Nat.le_refl _)

/-- An engine that the call does not have stays as it is. -/
theorem engine_eq (h : Deed engine w i turn old new u) (hn : old.engine? ≠ some n) {s : σ}
    (hs : w.engines[n]? = some s) : u.engines[n]? = some s := by
  have hother {m : Nat} (hm : m ≠ n) (f : σ → σ) : (w.engines.modify m f)[n]? = some s := by
    rw [List.getElem?_modify_ne _ _ hm]
    exact hs
  have hlt : n < w.engines.length := (List.getElem?_eq_some_iff.mp hs).1
  cases h with
  | build => exact (List.getElem?_append_left hlt).trans hs
  | clear | finish | putBack => exact hother (fun h => hn (congrArg some h)) _
  | enter | take | miss | start | leave => exact hs

/-- What becomes of an engine: only the call that uses it leaves anything behind. -/
theorem rested (h : Deed engine w i turn old new u) (hengine : engine.Renewable) {t : σ}
    (ht : u.engines[n]? = some t) : engine.clearStop t = engine.fresh ∨ new.used? = some n ∨
      old.used? ≠ some n ∧ ∃ s, w.engines[n]? = some s ∧
        (engine.clearStop s = engine.fresh → engine.clearStop t = engine.fresh) := by
  have hmodified {m : Nat} {f : σ → σ} (ht : (w.engines.modify m f)[n]? = some t) :
      ∃ s, w.engines[n]? = some s ∧ t = if m = n then f s else s := by
    rw [List.getElem?_modify] at ht
    obtain ⟨s, hs, rfl⟩ := Option.map_eq_some_iff.mp ht
    exact ⟨s, hs, rfl⟩
  cases h with
  | enter | take | miss | start | leave => exact .inr (.inr ⟨nofun, t, ht, id⟩)
  | build =>
    rcases Nat.lt_or_ge n w.engines.length with hlt | hge
    · rw [List.getElem?_append_left hlt] at ht
      exact .inr (.inr ⟨nofun, t, ht, id⟩)
    · rw [List.getElem?_append_right hge] at ht
      have ht' := List.mem_singleton.mp (List.mem_of_getElem? ht)
      rw [ht']
      exact .inl hengine.clearStop_fresh
  | clear =>
    obtain ⟨s, hs, rfl⟩ := hmodified ht
    refine .inr (.inr ⟨nofun, s, hs, fun hclean => ?_⟩)
    split
    · rw [hclean]
      exact hengine.clearStop_fresh
    · exact hclean
  | @finish m =>
    by_cases hm : m = n
    · exact .inr (.inl (congrArg some hm))
    · obtain ⟨s, hs, rfl⟩ := hmodified ht
      rw [if_neg hm]
      exact .inr (.inr ⟨fun h => hm (Option.some.inj h), s, hs, id⟩)
  | @putBack m =>
    obtain ⟨s, hs, rfl⟩ := hmodified ht
    by_cases hm : m = n
    · rw [if_pos hm]
      exact .inl (hengine.clearStop_reset s)
    · rw [if_neg hm]
      exact .inr (.inr ⟨fun h => hm (Option.some.inj h), s, hs, id⟩)

end Deed

/-! ## The invariant -/

namespace Orderly

/-- Two calls never have one engine. -/
theorem eq_of_engine? (h : w.Orderly engine capacity) {j : Nat} {a b : Stage}
    (hi : w.calls[i]? = some a) (hj : w.calls[j]? = some b) (ha : a.engine? = some n)
    (hb : b.engine? = some n) : i = j := by
  have hnodup : w.held.Nodup :=
    (List.nodup_append.mp (h.placed.nodup_iff.mpr List.nodup_range)).2.1
  have hpairs := List.pairwise_filterMap.mp hnodup
  rw [List.pairwise_iff_getElem] at hpairs
  obtain ⟨hilt, rfl⟩ := List.getElem?_eq_some_iff.mp hi
  obtain ⟨hjlt, rfl⟩ := List.getElem?_eq_some_iff.mp hj
  rcases Nat.lt_trichotomy i j with hlt | heq | hgt
  · exact absurd rfl (hpairs i j hilt hjlt hlt n ha n hb)
  · exact heq
  · exact absurd rfl (hpairs j i hjlt hilt hgt n hb n ha)

/-- An engine that a call has is not idle. -/
theorem notMem_idle (h : w.Orderly engine capacity) {stage : Stage}
    (hi : w.calls[i]? = some stage) (hn : stage.engine? = some n) : n ∉ w.idle := by
  have hmem : n ∈ w.held := List.mem_filterMap.mpr ⟨stage, List.mem_of_getElem? hi, hn⟩
  have hdisjoint := (List.nodup_append.mp (h.placed.nodup_iff.mpr List.nodup_range)).2.2
  exact fun hidle => hdisjoint n hidle n hmem rfl

/-- No engine is idle twice. -/
theorem nodup_idle (h : w.Orderly engine capacity) : w.idle.Nodup :=
  (List.nodup_append.mp (h.placed.nodup_iff.mpr List.nodup_range)).1

/-- Calls have engines that there are. -/
theorem exists_engine (h : w.Orderly engine capacity) {stage : Stage}
    (hi : w.calls[i]? = some stage) (hn : stage.engine? = some n) :
    ∃ s, w.engines[n]? = some s := by
  have hmem : n ∈ w.held := List.mem_filterMap.mpr ⟨stage, List.mem_of_getElem? hi, hn⟩
  have hrange := h.placed.mem_iff.mp (List.mem_append_right _ hmem)
  exact ⟨_, List.getElem?_eq_getElem (List.mem_range.mp hrange)⟩

/-- A request to stop is not in the way. -/
theorem requestStop (h : w.Orderly engine capacity) (hengine : engine.Renewable) :
    Orderly engine capacity
      { w with gate := w.gate.interrupt, engines := w.engines.map engine.requestStop } where
  capacity_eq := h.capacity_eq
  total := h.total
  placed := (List.length_map engine.requestStop).symm ▸ h.placed
  room := (List.length_map engine.requestStop).symm ▸ h.room
  rested n t ht := by
    rw [List.getElem?_map] at ht
    obtain ⟨s, hs, rfl⟩ := Option.map_eq_some_iff.mp ht
    rw [hengine.clearStop_requestStop]
    exact h.rested n s hs

/-- A deed keeps order. -/
theorem deed (h : w.Orderly engine capacity) (hengine : engine.Renewable) {old new : Stage}
    {u : Workshop σ} (hi : w.calls[i]? = some old) (hdeed : Deed engine w i turn old new u) :
    (u.place i new).Orderly engine capacity := by
  have hu : u.calls[i]? = some old := hdeed.calls_eq ▸ hi
  have hheld : u.held = w.held := congrArg (List.filterMap Stage.engine?) hdeed.calls_eq
  have htokens : u.tokens = w.tokens := congrArg (List.countP Stage.hasToken) hdeed.calls_eq
  have hawaited : u.awaited = w.awaited := congrArg (List.countP Stage.isEmptyHanded) hdeed.calls_eq
  have htokens' := tokens_place u hu new
  have htotal := h.total
  have hcapacity := h.capacity_eq
  have hout : old.hasToken = true → w.gate.free < w.gate.capacity := by
    intro hold
    have hpos : 0 < w.tokens := List.countP_pos_iff.mpr ⟨old, List.mem_of_getElem? hi, hold⟩
    omega
  obtain ⟨hcapacity', hfree⟩ := hdeed.tokens hout
  have htotal' : (u.place i new).gate.free + (u.place i new).tokens = capacity := by
    change u.gate.free + _ = _
    omega
  have hplaced : ((u.place i new).idle ++ (u.place i new).held).Perm
      (List.range u.engines.length) := by
    obtain ⟨made, hmade, hperm⟩ := hdeed.placed
    have hmoved := held_place u hu new
    have hstood := h.placed
    rw [hmade]
    rw [List.perm_iff_count] at hperm hmoved hstood ⊢
    intro x
    have hx := hperm x
    have hx' := hmoved x
    have hx'' := hstood x
    rw [hheld] at hx'
    simp only [List.count_append] at hx hx' hx'' ⊢
    change List.count x u.idle + _ = _
    omega
  refine ⟨hcapacity'.trans hcapacity, htotal', hplaced, ?_, ?_⟩
  · have hawaited' := awaited_place u hu new
    rcases hdeed.room with hroom | hidle
    · have := h.room
      change u.engines.length + _ ≤ _
      omega
    · -- No engine is idle, so each belongs to a call, and each call has a token.
      have hlength := hplaced.length_eq
      have hle := length_held_le (u.place i new)
      have hidle' : (u.place i new).idle = [] := hidle
      rw [hidle', List.nil_append, List.length_range] at hlength
      change u.engines.length + _ ≤ _
      omega
  · intro n t ht
    rcases hdeed.rested hengine ht with hclean | hused | ⟨hold, s, hs, hclean⟩
    · exact .inl hclean
    · exact .inr ⟨i, new, calls_place_self u hu new, hused⟩
    · rcases h.rested n s hs with hs' | ⟨j, stage, hj, hused⟩
      · exact .inl (hclean hs')
      · have hne : i ≠ j := by
          rintro rfl
          cases hi.symm.trans hj
          exact hold hused
        refine .inr ⟨j, stage, ?_, hused⟩
        rw [calls_place_ne u hne, hdeed.calls_eq]
        exact hj

/-- Every turn keeps order. -/
theorem step (h : w.Orderly engine capacity) (hengine : engine.Renewable)
    (hstep : w.step engine turn = some v) : v.Orderly engine capacity := by
  rcases deed_of_step hstep with ⟨-, rfl⟩ | ⟨i, old, new, u, hi, hdeed, rfl⟩
  · exact h.requestStop hengine
  · exact h.deed hengine hi hdeed

/-- Turns keep order. -/
theorem run (h : w.Orderly engine capacity) (hengine : engine.Renewable)
    (hrun : w.run engine turns = some v) : v.Orderly engine capacity := by
  induction turns generalizing w with
  | nil =>
    cases hrun
    exact h
  | cons turn rest ih =>
    obtain ⟨u, hstep, hrest⟩ := run_cons.mp hrun
    exact ih (h.step hengine hstep) hrest

/-- A call begins its run on an engine that is as good as new, but for requests to stop. -/
theorem clearStop_of_start (h : w.Orderly engine capacity)
    (hstep : w.step engine (.start i) = some v) : ∃ n s, v.calls[i]? = some (.running n) ∧
      v.engines[n]? = some s ∧ engine.clearStop s = engine.fresh := by
  rcases deed_of_step hstep with ⟨hturn, -⟩ | ⟨j, old, new, u, hj, hdeed, rfl⟩
  · cases hturn
  · cases hdeed with
    | @start n =>
      obtain ⟨s, hs⟩ := h.exists_engine (n := n) hj rfl
      refine ⟨n, s, calls_place_self w hj _, hs, ?_⟩
      rcases h.rested n s hs with hclean | ⟨k, stage, hk, hused⟩
      · exact hclean
      · -- No other call has the engine, and this one has not used it.
        cases h.eq_of_engine? hj hk rfl (Stage.engine?_of_used? hused)
        cases hj.symm.trans hk
        cases hused

end Orderly

/-! ## Requests to stop -/

/-- A call runs on an engine that was asked to stop. -/
def IsStopped (engine : Engine σ) (w : Workshop σ) (i n : Nat) : Prop :=
  w.calls[i]? = some (.running n) ∧ ∃ s, w.engines[n]? = some s ∧ engine.isStopping s = true

/-- Who asks for a stop reaches every call that runs. -/
theorem Orderly.isStopped (h : w.Orderly engine capacity)
    (hstops : ∀ s, engine.isStopping (engine.requestStop s) = true)
    (hi : w.calls[i]? = some (.running n)) (hstep : w.step engine .requestStop = some v) :
    v.IsStopped engine i n := by
  cases hstep
  obtain ⟨s, hs⟩ := h.exists_engine (n := n) hi rfl
  refine ⟨hi, engine.requestStop s, ?_, hstops s⟩
  rw [List.getElem?_map, hs]
  rfl

/-- Only the end of the run takes the request away. -/
theorem IsStopped.step (hstopped : w.IsStopped engine i n) (h : w.Orderly engine capacity)
    (hstops : ∀ s, engine.isStopping (engine.requestStop s) = true)
    (hturn : ∀ effect, turn ≠ .finish i effect) (hstep : w.step engine turn = some v) :
    v.IsStopped engine i n := by
  obtain ⟨hi, s, hs, hstop⟩ := hstopped
  rcases deed_of_step hstep with ⟨rfl, -⟩ | ⟨j, old, new, u, hj, hdeed, rfl⟩
  · exact h.isStopped hstops hi hstep
  · have hne : j ≠ i := by
      rintro rfl
      cases hj.symm.trans hi
      cases hdeed
      exact hturn _ rfl
    have hother : old.engine? ≠ some n := fun hold => hne (h.eq_of_engine? hj hi hold rfl)
    refine ⟨?_, s, hdeed.engine_eq hother hs, hstop⟩
    rw [calls_place_ne u hne, hdeed.calls_eq]
    exact hi

/-- A call stays stopped until it finishes. -/
theorem IsStopped.run (hstopped : w.IsStopped engine i n) (h : w.Orderly engine capacity)
    (hengine : engine.Renewable) (hstops : ∀ s, engine.isStopping (engine.requestStop s) = true)
    (hturns : ∀ effect, .finish i effect ∉ turns) (hrun : w.run engine turns = some v) :
    v.IsStopped engine i n := by
  induction turns generalizing w with
  | nil =>
    cases hrun
    exact hstopped
  | cons turn rest ih =>
    obtain ⟨u, hstep, hrest⟩ := run_cons.mp hrun
    have hturn (effect : σ → σ) : turn ≠ .finish i effect :=
      fun hturn => hturns effect (hturn ▸ .head _)
    have hu := hstopped.step h hstops hturn hstep
    exact ih hu (h.step hengine hstep) (fun effect hmem => hturns effect (.tail _ hmem)) hrest

/-! ## Engines behind a gate -/

/-- Where engines may be, and how many there may be. -/
structure Confined (capacity : Nat) (w : Workshop σ) : Prop where
  /-- No two calls have one engine. -/
  alone : ∀ (i j : Nat) (a b : Stage) (n : Nat), w.calls[i]? = some a → w.calls[j]? = some b →
    a.engine? = some n → b.engine? = some n → i = j
  /-- No engine that a call has is idle. -/
  apart : ∀ (i : Nat) (a : Stage) (n : Nat), w.calls[i]? = some a → a.engine? = some n → n ∉ w.idle
  /-- No engine is idle twice. -/
  once : w.idle.Nodup
  /-- There are no more engines than tokens. -/
  bounded : w.engines.length ≤ capacity

/-- In an orderly workshop engines are confined. -/
theorem Orderly.confined (h : w.Orderly engine capacity) : w.Confined capacity where
  alone _ _ _ _ _ hi hj ha hb := h.eq_of_engine? hi hj ha hb
  apart _ _ _ hi ha := h.notMem_idle hi ha
  once := h.nodup_idle
  bounded := Nat.le_trans (Nat.le_add_right _ _) h.room

/-- However calls take turns behind a gate, engines are confined and not more than the tokens. A run
begins without warnings, and who asks for a stop during the run is heard until it ends. -/
theorem opened_confines_engines {capacity : Nat} (hcapacity : 1 ≤ capacity) :
    ∃ gate, Gate.make capacity = .ok gate ∧ ∀ calls turns w,
      (opened gate calls).run Engine.builtin turns = some w →
        w.Confined capacity ∧
        (∀ i v, w.step Engine.builtin (.start i) = some v →
          ∃ n s, v.calls[i]? = some (.running n) ∧ v.engines[n]? = some s ∧ s.warnings = []) ∧
        ∀ i n v, w.calls[i]? = some (.running n) → w.step Engine.builtin .requestStop = some v →
          ∀ later u, v.run Engine.builtin later = some u → (∀ effect, .finish i effect ∉ later) →
            u.calls[i]? = some (.running n) ∧ ∃ s, u.engines[n]? = some s ∧ s.stop = true := by
  have hmake : Gate.make capacity = .ok ⟨capacity, capacity, 0⟩ :=
    if_neg (Nat.ne_of_gt hcapacity)
  have hengine := Engine.builtin_renewable
  refine ⟨_, hmake, ?_⟩
  intro calls turns w hrun
  have horderly : w.Orderly Engine.builtin capacity := (orderly_opened 0 calls).run hengine hrun
  refine ⟨horderly.confined, ?_, ?_⟩
  · intro i v hstart
    obtain ⟨n, s, hcall, hs, hclean⟩ := horderly.clearStop_of_start hstart
    exact ⟨n, s, hcall, hs, congrArg Builtin.State.warnings hclean⟩
  · intro i n v hi hstop later u hlater hfinish
    have hstopped := horderly.isStopped (fun _ => rfl) hi hstop
    exact hstopped.run (horderly.step hengine hstop) hengine (fun _ => rfl) hfinish hlater

/-- Two calls find no engine. One of them makes an engine and leaves a warning behind, and a third
call has begun to run on it before the other makes its own. A request to stop reaches the third. -/
theorem opened_confines_engines_late :
    ∃ gate w v asked u, Gate.make 2 = .ok gate ∧
      (opened gate 3).run Engine.builtin [.enter 0, .enter 1, .pick 0, .pick 1, .build 0, .clear 0,
        .start 0, .finish 0 fun s => { s with warnings := ["rounded"] }, .putBack 0, .leave 0,
        .enter 2, .pick 2, .clear 2] = some w ∧
      w.Confined 2 ∧ w.step Engine.builtin (.start 2) = some v ∧
      (∃ n s, v.calls[2]? = some (.running n) ∧ v.engines[n]? = some s ∧ s.warnings = []) ∧
      v.step Engine.builtin .requestStop = some asked ∧
      asked.run Engine.builtin [.build 1, .clear 1, .start 1] = some u ∧
      u.calls = [.outside, .running 1, .running 0] ∧
      ∃ s, u.engines[0]? = some s ∧ s.stop = true := by
  obtain ⟨gate, hmake, h⟩ := opened_confines_engines (Nat.le_succ 1)
  cases hmake
  let w : Workshop Builtin.State :=
    ⟨⟨2, 0, 0⟩, [⟨false, []⟩], [], [.outside, .emptyHanded, .ready 0]⟩
  let v : Workshop Builtin.State := w.place 2 (.running 0)
  let asked : Workshop Builtin.State := { v with gate := ⟨2, 0, 1⟩, engines := [⟨true, []⟩] }
  obtain ⟨hconfined, hstart, -⟩ := h 3 [.enter 0, .enter 1, .pick 0, .pick 1, .build 0, .clear 0,
    .start 0, .finish 0 fun s => { s with warnings := ["rounded"] }, .putBack 0, .leave 0,
    .enter 2, .pick 2, .clear 2] w rfl
  obtain ⟨-, -, hstop⟩ := h 3 [.enter 0, .enter 1, .pick 0, .pick 1, .build 0, .clear 0,
    .start 0, .finish 0 fun s => { s with warnings := ["rounded"] }, .putBack 0, .leave 0,
    .enter 2, .pick 2, .clear 2, .start 2] v rfl
  have hfinish (effect : Builtin.State → Builtin.State) :
      .finish 2 effect ∉ [Turn.build 1, .clear 1, .start 1] := by simp
  obtain ⟨-, hheard⟩ := hstop 2 0 asked rfl rfl [.build 1, .clear 1, .start 1] _ rfl hfinish
  exact ⟨_, w, v, asked, _, rfl, rfl, hconfined, rfl, hstart 2 v rfl, rfl, rfl, rfl, hheard⟩

end Workshop

end Reckoner.Service.Concurrent
