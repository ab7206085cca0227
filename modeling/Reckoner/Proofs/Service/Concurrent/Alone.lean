import Reckoner.Proofs.Service.Concurrent.Engines
import Reckoner.Service.Pool

/-!
# One call alone

Turns are what the calls at a pool are made of: where nobody disturbs a call, its turns lead to the
gate and the engines that the pool has behind the call.
-/

namespace Reckoner.Service.Concurrent.Workshop

variable {σ : Type} {engine : Engine σ} {w : Workshop σ} {turn : Turn σ} {turns : List (Turn σ)}
  {i n : Nat}

/-- The workshop has the engines of a pool. -/
structure Mirrors (w : Workshop σ) (p : Pool σ) : Prop where
  /-- The gate is the same. -/
  gate : w.gate = p.gate
  /-- As many engines were made. -/
  engines : w.engines.length = p.engines
  /-- The same engines are idle. -/
  idle : w.idle.map (w.engines[·]?) = p.idle.map some

/-- Who asks for a stop asks idle engines, too. -/
theorem Mirrors.requestStop {p : Pool σ} (h : w.Mirrors p) :
    ∃ v, w.step engine .requestStop = some v ∧ v.Mirrors (p.requestStop engine) := by
  refine ⟨_, rfl, congrArg Gate.interrupt h.gate, ?_, ?_⟩
  · rw [List.length_map]
    exact h.engines
  · have hasked : w.idle.map ((w.engines.map engine.requestStop)[·]?) =
        (w.idle.map (w.engines[·]?)).map (Option.map engine.requestStop) := by
      simp only [List.getElem?_map, List.map_map]
      rfl
    dsimp only [Pool.requestStop]
    rw [hasked, h.idle, List.map_map, List.map_map]
    rfl

/-- How a call that has a token gets an engine. -/
def fetching (i : Nat) (idle : List Nat) : List (Turn σ) :=
  if idle = [] then [.pick i, .build i] else [.pick i]

/-- What a call does with the engine that it has. -/
def usage (i : Nat) (effect : σ → σ) : List (Turn σ) :=
  [.clear i, .start i, .finish i effect, .putBack i, .leave i]

/-- The turns of a call that nobody disturbs. -/
def errand (i : Nat) (idle : List Nat) (effect : σ → σ) : List (Turn σ) :=
  .enter i :: fetching i idle ++ usage i effect

/-- What a call can do is what its turn does. -/
theorem run_of_deed {old new : Stage} {u : Workshop σ} (hi : w.calls[i]? = some old)
    (h : Deed engine w i turn old new u) :
    w.run engine (turn :: turns) = (u.place i new).run engine turns := by
  rw [run, List.foldlM_cons, step_of_deed hi h]
  rfl

variable (engine) in
/-- A call that has an engine puts it back and gives its token back. -/
theorem run_usage (hi : w.calls[i]? = some (.handed n)) (effect : σ → σ) :
    w.run engine (usage i effect) = some { w with
      gate := w.gate.release,
      engines := w.engines.modify n (engine.reset ∘ effect ∘ engine.clearStop),
      idle := n :: w.idle,
      calls := w.calls.set i .outside } := by
  have hlt : i < w.calls.length := (List.getElem?_eq_some_iff.mp hi).1
  have hself {calls : List Stage} {stage : Stage} (h : calls.length = w.calls.length) :
      (calls.set i stage)[i]? = some stage := List.getElem?_set_self (h ▸ hlt)
  refine Eq.trans (run_of_deed hi .clear) ?_
  refine Eq.trans (run_of_deed (hself rfl) .start) ?_
  refine Eq.trans (run_of_deed (hself (by simp [place])) .finish) ?_
  refine Eq.trans (run_of_deed (hself (by simp [place])) .putBack) ?_
  refine Eq.trans (run_of_deed (hself (by simp [place])) .leave) ?_
  simp [run, place, List.modify_modify_eq]

theorem run_append {behind : List (Turn σ)} : w.run engine (turns ++ behind) =
    (w.run engine turns).bind (·.run engine behind) :=
  List.foldlM_append

variable (engine) in
/-- The turns in which a call gets an engine take the same engine out of the pool. -/
theorem Mirrors.fetching {p : Pool σ} (h : w.Mirrors p) (hidle : w.idle.Nodup)
    (hi : w.calls[i]? = some .admitted) : ∃ n s q u,
      w.run engine (fetching i w.idle) = some u ∧ u.calls = w.calls.set i (.handed n) ∧
      u.engines[n]? = some s ∧ n ∉ u.idle ∧ p.checkout engine = (engine.clearStop s, q) ∧
      u.Mirrors q := by
  have hlt : i < w.calls.length := (List.getElem?_eq_some_iff.mp hi).1
  have hsame := h.idle
  cases hw : w.idle with
  | nil =>
    have hp : p.idle = [] := by
      rw [hw] at hsame
      exact List.map_eq_nil_iff.mp hsame.symm
    refine ⟨w.engines.length, engine.fresh, { p with engines := p.engines + 1 },
      { w with engines := w.engines ++ [engine.fresh],
               calls := w.calls.set i (.handed w.engines.length) }, ?_, rfl, ?_, ?_, ?_, ?_⟩
    · rw [Workshop.fetching, if_pos rfl]
      refine Eq.trans (run_of_deed hi (.miss hw)) ?_
      refine Eq.trans (run_of_deed (List.getElem?_set_self hlt) .build) ?_
      simp [Workshop.run, place]
    · exact List.getElem?_concat_length
    · simp [hw]
    · simp only [Pool.checkout, hp]
    · exact ⟨h.gate, by simp [h.engines], by simp [hw, hp]⟩
  | cons n rest =>
    rw [hw] at hsame hidle
    obtain ⟨s, others, hp, hs, hrest⟩ := List.map_eq_cons_iff.mp hsame.symm
    refine ⟨n, s, { p with idle := others },
      { w with idle := rest, calls := w.calls.set i (.handed n) }, ?_, rfl, hs.symm, ?_, ?_, ?_⟩
    · rw [Workshop.fetching, if_neg (List.cons_ne_nil n rest)]
      exact run_of_deed hi (.take hw)
    · exact (List.nodup_cons.mp hidle).1
    · simp only [Pool.checkout, hp]
    · exact ⟨h.gate, h.engines, hrest.symm⟩

/-- A call that nobody disturbs does in turns what it does at a pool in one go. -/
theorem Mirrors.run {p q : Pool σ} {α : Type} {outcome : Except EngineError α} (h : w.Mirrors p)
    (hidle : w.idle.Nodup) (hi : w.calls[i]? = some .outside) {operation : String}
    {call : σ → Except EngineError α × σ} (hrun : p.run engine operation call = (.ok outcome, q)) :
    ∃ v, w.run engine (errand i w.idle fun s => (call s).2) = some v ∧ v.Mirrors q ∧
      v.calls = w.calls := by
  obtain ⟨hlt, hoff⟩ := List.getElem?_eq_some_iff.mp hi
  unfold Pool.run Gate.acquire at hrun
  cases htake : p.gate.take? with
  | none =>
    rw [htake] at hrun
    cases hrun
  | some gate =>
    have hw : w.gate.take? = some gate := h.gate ▸ htake
    let w' : Workshop σ := { w with gate }.place i .admitted
    let p' : Pool σ := { p with gate }
    have hmirrors : w'.Mirrors p' := ⟨rfl, h.engines, h.idle⟩
    obtain ⟨n, s, r, u, hfetching, hcalls, hs, hn, hcheckout, hu⟩ :=
      hmirrors.fetching engine hidle (List.getElem?_set_self hlt)
    have hhanded : u.calls[i]? = some (.handed n) := by
      rw [hcalls]
      exact List.getElem?_set_self (by simpa [w', place] using hlt)
    have husage := run_usage engine hhanded fun s => (call s).2
    have hwhole : w.run engine (errand i w.idle fun s => (call s).2) = _ :=
      calc
        _ = w'.run engine (Workshop.fetching i w'.idle ++ usage i fun s => (call s).2) :=
          run_of_deed hi (.enter hw)
        _ = (some u).bind (·.run engine (usage i fun s => (call s).2)) := hfetching ▸ run_append
        _ = _ := husage
    rw [htake] at hrun
    simp only [hcheckout, p'] at hrun
    cases hrun
    refine ⟨_, hwhole, ⟨?_, ?_, ?_⟩, ?_⟩
    · exact congrArg Gate.release hu.gate
    · rw [List.length_modify]
      exact hu.engines
    · have hothers (f : σ → σ) :
          u.idle.map ((u.engines.modify n f)[·]?) = u.idle.map (u.engines[·]?) := by
        refine List.map_congr_left fun m hm => List.getElem?_modify_ne _ _ ?_
        rintro rfl
        exact hn hm
      dsimp only [Pool.checkin]
      rw [List.map_cons, hothers, hu.idle, List.getElem?_modify_eq, hs]
      rfl
    · have hback : w.calls.set i .outside = w.calls := hoff ▸ List.set_getElem_self hlt
      dsimp only
      rw [hcalls]
      simpa [w', place] using hback

end Reckoner.Service.Concurrent.Workshop
