import Reckoner.Service.Basic

/-!
# Services between calls

Between calls a service is tidy: every token is free, every idle engine is as good as new once
requests to stop are taken back, and every stored result is the one that a new engine gives. A task
is steady if it has the same outcome on all tidy services with the same limits, and leaves them
tidy. The calls of a service are steady, whether they are answered from the store or not.
-/

namespace Reckoner

variable {σ : Type}

/-- An engine is as good as new once it is reset and requests to stop are taken back. -/
structure Engine.Renewable (engine : Engine σ) : Prop where
  /-- Nobody has asked a new engine to stop. -/
  clearStop_fresh : engine.clearStop engine.fresh = engine.fresh
  /-- Resetting forgets what calls have left behind. -/
  clearStop_reset : ∀ s, engine.clearStop (engine.reset s) = engine.fresh
  /-- A request to stop can be taken back. -/
  clearStop_requestStop : ∀ s, engine.clearStop (engine.requestStop s) = engine.clearStop s

/-- The built-in engine keeps nothing over a reset. -/
theorem Engine.builtin_renewable : Engine.builtin.Renewable :=
  ⟨rfl, fun _ => rfl, fun _ => rfl⟩

namespace Service

variable {engine : Engine σ}

/-! ## The pool -/

/-- No call runs: every token is free, and every idle engine is as good as new. -/
structure Pool.Tidy (engine : Engine σ) (p : Pool σ) : Prop where
  /-- There are tokens. -/
  positive : 0 < p.gate.capacity
  /-- Nobody holds a token. -/
  free : p.gate.free = p.gate.capacity
  /-- At most a request to stop is left over. -/
  idle : ∀ s ∈ p.idle, engine.clearStop s = engine.fresh

namespace Pool

variable {p : Pool σ}

/-- The engine that is taken out is as good as new, and so are those that stay. -/
theorem checkout_eq (hengine : engine.Renewable)
    (h : ∀ s ∈ p.idle, engine.clearStop s = engine.fresh) :
    ∃ q : Pool σ, p.checkout engine = (engine.fresh, q) ∧
      ∀ s ∈ q.idle, engine.clearStop s = engine.fresh := by
  cases hidle : p.idle with
  | nil =>
    refine ⟨{ p with engines := p.engines + 1 }, ?_, h⟩
    simp only [checkout, hidle, hengine.clearStop_fresh]
  | cons s rest =>
    rw [hidle] at h
    have hs : engine.clearStop s = engine.fresh := h s (.head _)
    refine ⟨{ p with idle := rest }, ?_, fun t ht => h t (.tail _ ht)⟩
    simp only [checkout, hidle, hs]

/-- Where no call runs, a call runs on the engine that is taken out, which goes back once it is
reset. The token that was taken is given back at the end, so the gate is as it was. -/
theorem exists_run (engine : Engine σ) (hpositive : 0 < p.gate.capacity)
    (hfree : p.gate.free = p.gate.capacity) {α : Type} (operation : String)
    (call : σ → Except EngineError α × σ) :
    ∃ q : Pool σ, p.run engine operation call = (.ok (call (p.checkout engine).1).1, q) ∧
      q.gate = p.gate ∧
      q.idle = engine.reset (call (p.checkout engine).1).2 :: (p.checkout engine).2.idle := by
  let taken : Gate := { p.gate with free := p.gate.free - 1 }
  have htake : p.gate.take? = some taken := by
    rw [Gate.take?, if_neg (by omega)]
  have hrelease : taken.release = p.gate := Gate.release_of_take? (Nat.le_of_eq hfree) htake
  have hcheckout : Pool.checkout engine { p with gate := taken } =
      ((p.checkout engine).1, { (p.checkout engine).2 with gate := taken }) := by
    simp only [checkout]
    cases p.idle <;> rfl
  let q := (p.checkout engine).2
  refine ⟨{ q with
    gate := p.gate, invocations := q.invocations + 1,
    idle := engine.reset (call (p.checkout engine).1).2 :: q.idle }, ?_, rfl, rfl⟩
  simp only [q, Pool.run, Gate.acquire, htake, hcheckout, checkin, hrelease]

namespace Tidy

/-- A call runs on an engine as good as new, and the pool is tidy again behind it. -/
theorem run (h : p.Tidy engine) (hengine : engine.Renewable) {α : Type} (operation : String)
    (call : σ → Except EngineError α × σ) :
    ∃ q : Pool σ, p.run engine operation call = (.ok (call engine.fresh).1, q) ∧
      q.Tidy engine := by
  obtain ⟨q, hrun, hgate, hidle⟩ := exists_run engine h.positive h.free operation call
  obtain ⟨_, hcheckout, hrest⟩ := checkout_eq hengine h.idle
  rw [hcheckout] at hrun hidle
  refine ⟨q, hrun, ⟨by rw [hgate]; exact h.positive, by rw [hgate]; exact h.free, ?_⟩⟩
  intro s hs
  rw [hidle] at hs
  rcases List.mem_cons.mp hs with rfl | hs
  · exact hengine.clearStop_reset _
  · exact hrest s hs

/-- A request to stop leaves the pool tidy. -/
theorem requestStop (h : p.Tidy engine) (hengine : engine.Renewable) :
    (p.requestStop engine).Tidy engine := by
  refine ⟨h.positive, h.free, fun s hs => ?_⟩
  obtain ⟨t, ht, rfl⟩ := List.mem_map.mp hs
  rw [hengine.clearStop_requestStop]
  exact h.idle t ht

/-- A pool without engines is tidy behind a new gate. -/
theorem ofGate {capacity : Nat} {gate : Gate} (h : Gate.make capacity = .ok gate) :
    (Pool.ofGate gate).Tidy engine := by
  unfold Gate.make at h
  split at h
  · cases h
  · cases h
    exact ⟨Nat.pos_of_ne_zero ‹_›, rfl, fun s hs => by cases hs⟩

end Tidy

end Pool

/-! ## What a new engine gives -/

/-- The outcome of a call on an engine as good as new. -/
def Key.answer (engine : Engine σ) : Key → Call
  | .evaluate text => .ofOutcome text (engine.evaluate text engine.fresh).1
  | .calculate text places => .ofOutcome text (engine.calculate text places engine.fresh).1
  | .draw text axis origin bound =>
    .ofOutcome text (engine.draw text axis origin bound engine.fresh).1

/-- What an engine as good as new says about a text; what it refuses is malformed. -/
def verdict (engine : Engine σ) (text : String) : Except Failure String :=
  match (engine.validate text engine.fresh).1 with
  | .ok canonical => .ok canonical
  | .error (.parse detail) => .error (.malformed detail)
  | .error e => .error (.malformed e.message)

/-- The display form of a result from an engine as good as new. -/
def displayed (engine : Engine σ) (r : Evaluation) : Evaluation :=
  match (engine.display r.text engine.fresh).1 with
  | .ok text => r.withText text
  | .error e => ⟨r.text, r.problems ++ [e.message]⟩

/-- A text that an engine refuses does not end a batch. -/
theorem isRecoverable_of_verdict {text : String} {e : Failure}
    (h : verdict engine text = .error e) : e.isRecoverable = true := by
  unfold verdict at h
  split at h
  · cases h
  · cases h
    rfl
  · cases h
    rfl

namespace Pool.Tidy

variable {p : Pool σ}

/-- A tidy pool gives the verdict of a new engine. -/
theorem validate (h : p.Tidy engine) (hengine : engine.Renewable) (text : String) :
    ∃ q : Pool σ, p.validate engine text = (verdict engine text, q) ∧ q.Tidy engine := by
  obtain ⟨q, hrun, hq⟩ := h.run hengine "validate_syntax" (engine.validate text)
  refine ⟨q, ?_, hq⟩
  rw [Pool.validate, hrun, verdict]
  cases (engine.validate text engine.fresh).1 with
  | ok canonical => rfl
  | error e => cases e <;> rfl

/-- A tidy pool displays results as a new engine does. -/
theorem display (h : p.Tidy engine) (hengine : engine.Renewable) (r : Evaluation) :
    ∃ q : Pool σ, p.display engine r = (.ok (displayed engine r), q) ∧ q.Tidy engine := by
  obtain ⟨q, hrun, hq⟩ := h.run hengine "format_for_display" (engine.display r.text)
  refine ⟨q, ?_, hq⟩
  rw [Pool.display, hrun, displayed]
  cases (engine.display r.text engine.fresh).1 with
  | ok text => rfl
  | error e => rfl

/-- A tidy pool computes what a new engine does. -/
theorem compute (h : p.Tidy engine) (hengine : engine.Renewable) (operation text : String)
    (call : σ → Except EngineError Evaluation × σ) :
    ∃ q : Pool σ, p.compute engine operation text call =
      (.ok (.ofOutcome text (call engine.fresh).1), q) ∧ q.Tidy engine := by
  obtain ⟨q, hrun, hq⟩ := h.run hengine operation call
  refine ⟨q, ?_, hq⟩
  rw [Pool.compute, hrun]
  rfl

end Pool.Tidy

/-! ## The store -/

/-- Stored results are those that an engine as good as new gives. -/
def Store.Truthful (engine : Engine σ) (s : Store) : Prop :=
  ∀ entry ∈ s.entries, entry.2 = (entry.1.answer engine).result

namespace Store.Truthful

variable {s : Store} {key : Key}

theorem empty (settings : Settings.Store) : (Store.empty settings).Truthful engine :=
  fun _ h => by cases h

/-- Whatever has lapsed, what is found is true. -/
theorem eq_answer (h : s.Truthful engine) {result : Evaluation} (hget : s.get? key = some result) :
    result = (key.answer engine).result := by
  unfold Store.get? at hget
  split at hget
  · cases hget
  · obtain ⟨before, behind, hentries, -⟩ := List.lookup_eq_some_iff.mp hget
    refine h (key, result) ?_
    rw [hentries]
    exact List.mem_append_right _ (.head _)

/-- A true result may be stored. -/
theorem put (h : s.Truthful engine) : (s.put key (key.answer engine).result).Truthful engine := by
  intro entry hentry
  rcases List.mem_cons.mp hentry with rfl | hentry
  · rfl
  · exact h entry (List.mem_filter.mp hentry).1

/-- A true result may be kept. -/
theorem keep (h : s.Truthful engine) : (s.keep key (key.answer engine)).Truthful engine := by
  unfold Store.keep
  split
  · exact h
  · unfold Store.insert
    split
    · exact h
    · split
      · exact h
      · exact h.put
    · split
      · exact h
      · exact h.put

end Store.Truthful

/-! ## The service -/

/-- Nothing goes on in a service, whose limits are the given ones. -/
structure Tidy (engine : Engine σ) (settings : Settings) (s : Service σ) : Prop where
  /-- The pool is tidy. -/
  pool : s.pool.Tidy engine
  /-- The stored results are true. -/
  store : s.store.Truthful engine
  /-- The limits of the input. -/
  limits : s.settings.limits = settings.limits
  /-- The settings of the classification. -/
  classification : s.settings.classification = settings.classification

section

variable {α β : Type} {t : Task σ α} {f : α → Task σ β} {s s' : Service σ}

/-- Behind a result the task goes on with it. -/
theorem run_bind_of_ok {a : α} (h : t.run.run s = (.ok a, s')) :
    (t >>= f).run.run s = (f a).run.run s' := by
  rw [ExceptT.run_bind, StateT.run_bind, h]
  rfl

/-- A failure is passed on. -/
theorem run_bind_of_error {e : Failure} (h : t.run.run s = (.error e, s')) :
    (t >>= f).run.run s = (.error e, s') := by
  rw [ExceptT.run_bind, StateT.run_bind, h]
  rfl

/-- A task without a failure needs no handler. -/
theorem run_tryCatch_of_ok {handle : Failure → Task σ α} {a : α} (h : t.run.run s = (.ok a, s')) :
    (tryCatch t handle).run.run s = (.ok a, s') := by
  rw [ExceptT.run_tryCatch, StateT.run_bind, h]
  rfl

/-- A failure is handled where it left the service. -/
theorem run_tryCatch_of_error {handle : Failure → Task σ α} {e : Failure}
    (h : t.run.run s = (.error e, s')) :
    (tryCatch t handle).run.run s = (handle e).run.run s' := by
  rw [ExceptT.run_tryCatch, StateT.run_bind, h]
  rfl

/-- A task may look at the service first. -/
theorem run_read {f : Service σ → Task σ α} :
    (getThe (Service σ) >>= f).run.run s = (f s).run.run s := rfl

end

/-- On all tidy services a task has the same outcome, of which a statement holds, and it leaves
them tidy. -/
def Steady (engine : Engine σ) (settings : Settings) {α : Type} (t : Task σ α)
    (P : Except Failure α → Prop) : Prop :=
  ∃ outcome, P outcome ∧ ∀ s : Service σ, s.Tidy engine settings →
    ∃ s' : Service σ, t.run.run s = (outcome, s') ∧ s'.Tidy engine settings

namespace Steady

variable {settings : Settings} {α β : Type} {t : Task σ α} {f : α → Task σ β}
  {P Q : Except Failure α → Prop} {R : Except Failure β → Prop}

theorem mono (h : Steady engine settings t P) (hPQ : ∀ r, P r → Q r) :
    Steady engine settings t Q := by
  obtain ⟨outcome, hP, hrun⟩ := h
  exact ⟨outcome, hPQ outcome hP, hrun⟩

protected theorem pure {a : α} (h : P (.ok a)) : Steady engine settings (pure a) P :=
  ⟨.ok a, h, fun s hs => ⟨s, rfl, hs⟩⟩

protected theorem throw {e : Failure} (h : P (.error e)) : Steady engine settings (throw e) P :=
  ⟨.error e, h, fun s hs => ⟨s, rfl, hs⟩⟩

/-- One task after another; a failure is passed on. -/
theorem bind (ht : Steady engine settings t P)
    (hf : ∀ a, P (.ok a) → Steady engine settings (f a) R)
    (he : ∀ e, P (.error e) → R (.error e)) : Steady engine settings (t >>= f) R := by
  obtain ⟨outcome, hP, hrun⟩ := ht
  cases outcome with
  | error e =>
    refine ⟨.error e, he e hP, fun s hs => ?_⟩
    obtain ⟨s', heq, hs'⟩ := hrun s hs
    exact ⟨s', run_bind_of_error heq, hs'⟩
  | ok a =>
    obtain ⟨outcome, hR, hrest⟩ := hf a hP
    refine ⟨outcome, hR, fun s hs => ?_⟩
    obtain ⟨s', heq, hs'⟩ := hrun s hs
    obtain ⟨s'', heq', hs''⟩ := hrest s' hs'
    exact ⟨s'', (run_bind_of_ok heq).trans heq', hs''⟩

/-- A task that looks at the service first, but depends on its limits only. -/
theorem read {f : Service σ → Task σ α} (h : Steady engine settings t P)
    (hf : ∀ s : Service σ, s.Tidy engine settings → f s = t) :
    Steady engine settings (getThe (Service σ) >>= f) P := by
  obtain ⟨outcome, hP, hrun⟩ := h
  refine ⟨outcome, hP, fun s hs => ?_⟩
  rw [run_read, hf s hs]
  exact hrun s hs

/-- A failure is dealt with by another task. -/
protected theorem tryCatch {handle : Failure → Task σ α} (ht : Steady engine settings t P)
    (hok : ∀ a, P (.ok a) → Q (.ok a))
    (he : ∀ e, P (.error e) → Steady engine settings (handle e) Q) :
    Steady engine settings (tryCatch t handle) Q := by
  obtain ⟨outcome, hP, hrun⟩ := ht
  cases outcome with
  | ok a =>
    refine ⟨.ok a, hok a hP, fun s hs => ?_⟩
    obtain ⟨s', heq, hs'⟩ := hrun s hs
    exact ⟨s', run_tryCatch_of_ok heq, hs'⟩
  | error e =>
    obtain ⟨outcome, hQ, hhandle⟩ := he e hP
    refine ⟨outcome, hQ, fun s hs => ?_⟩
    obtain ⟨s', heq, hs'⟩ := hrun s hs
    obtain ⟨s'', heq', hs''⟩ := hhandle s' hs'
    exact ⟨s'', (run_tryCatch_of_error heq).trans heq', hs''⟩

end Steady

/-! ## The calls of a service -/

variable {settings : Settings}

/-- A call to the pool that all tidy pools answer alike. -/
theorem steady_inPool {α : Type} {call : Pool σ → Except Failure α × Pool σ}
    {outcome : Except Failure α}
    (h : ∀ p : Pool σ, p.Tidy engine → ∃ q : Pool σ, call p = (outcome, q) ∧ q.Tidy engine) :
    Steady engine settings (inPool call) (· = outcome) := by
  refine ⟨outcome, rfl, fun s hs => ?_⟩
  obtain ⟨q, hcall, hq⟩ := h s.pool hs.pool
  refine ⟨{ s with pool := q }, ?_, ⟨hq, hs.store, hs.limits, hs.classification⟩⟩
  rw [run_inPool, hcall]

section

variable {key : Key} {compute : Task σ Call} {s s' : Service σ}

/-- A lookup asks the store, then counts. -/
theorem run_lookup :
    (lookup key compute).run.run s = (s.store.getOrCompute key compute >>= fun found => do
      modifyThe (Service σ) fun s => count { s with store := found.2 } found.1.hit
      return found.1.result).run.run s := rfl

/-- What is stored is given back. -/
theorem run_lookup_of_some {result : Evaluation} (h : s.store.get? key = some result) :
    (lookup key compute).run.run s =
      (.ok result, count { s with store := s.store.next } true) := by
  rw [run_lookup, Store.getOrCompute_of_some h]
  rfl

/-- What is not stored is computed and kept. -/
theorem run_lookup_of_ok {call : Call} (h : s.store.get? key = none)
    (hrun : compute.run.run s = (.ok call, s')) :
    (lookup key compute).run.run s =
      (.ok call.result, count { s' with store := s.store.next.keep key call } false) := by
  rw [run_lookup, Store.getOrCompute_of_none h, bind_assoc, run_bind_of_ok hrun]
  rfl

/-- A failure is not counted. -/
theorem run_lookup_of_error {e : Failure} (h : s.store.get? key = none)
    (hrun : compute.run.run s = (.error e, s')) :
    (lookup key compute).run.run s = (.error e, s') := by
  rw [run_lookup, Store.getOrCompute_of_none h, bind_assoc, run_bind_of_error hrun]

end

/-- Whether it is stored or not, the answer is that of an engine as good as new. -/
theorem steady_lookup {key : Key} {compute : Task σ Call}
    (h : Steady engine settings compute (· = .ok (key.answer engine))) :
    Steady engine settings (lookup key compute) (· = .ok (key.answer engine).result) := by
  obtain ⟨outcome, houtcome, hrun⟩ := h
  subst houtcome
  refine ⟨_, rfl, fun s hs => ?_⟩
  cases hget : s.store.get? key with
  | some result =>
    rw [run_lookup_of_some hget, hs.store.eq_answer hget]
    exact ⟨_, rfl, ⟨hs.pool, hs.store, hs.limits, hs.classification⟩⟩
  | none =>
    obtain ⟨s', heq, hs'⟩ := hrun s hs
    have hnext : s.store.next.Truthful engine := hs.store
    rw [run_lookup_of_ok hget heq]
    exact ⟨_, rfl, ⟨hs'.pool, hnext.keep, hs'.limits, hs'.classification⟩⟩

/-- An engine reads a text the same way each time. -/
theorem steady_validateSyntax (hengine : engine.Renewable) (text : String) :
    Steady engine settings (validateSyntax engine text) (· = verdict engine text) :=
  steady_inPool fun _ hp => hp.validate hengine text

/-- The symbolic value is that of a new engine. -/
theorem steady_evaluate (hengine : engine.Renewable) (text : String) :
    Steady engine settings (evaluate engine text)
      (· = .ok (Key.answer engine (.evaluate text)).result) :=
  steady_lookup (steady_inPool fun _ hp => hp.compute hengine _ _ _)

/-- The approximate value is that of a new engine. -/
theorem steady_calculate (hengine : engine.Renewable) (text : String) (places : Nat) :
    Steady engine settings (calculate engine text places)
      (· = .ok (Key.answer engine (.calculate text places)).result) :=
  steady_lookup (steady_inPool fun _ hp => hp.compute hengine _ _ _)

/-- The graph is that of a new engine. -/
theorem steady_draw (hengine : engine.Renewable) (text axis origin bound : String) :
    Steady engine settings (draw engine text axis origin bound)
      (· = .ok (Key.answer engine (.draw text axis origin bound)).result) :=
  steady_lookup (steady_inPool fun _ hp => hp.compute hengine _ _ _)

/-- Results are displayed as by a new engine. -/
theorem steady_display (hengine : engine.Renewable) (r : Evaluation) :
    Steady engine settings (display engine r) (· = .ok (displayed engine r)) :=
  steady_inPool fun _ hp => hp.display hengine r

/-! ## Between the calls -/

/-- A service that was made has neither engines nor results so far. -/
theorem exists_gate_of_make {s : Service σ} (h : make settings = .ok s) :
    ∃ gate, Gate.make settings.gate.maxInFlight = .ok gate ∧
      s = ⟨settings, .ofGate gate, .empty settings.store, 0, 0⟩ := by
  unfold make at h
  cases hcheck : settings.check with
  | error e =>
    rw [hcheck] at h
    cases h
  | ok =>
    rw [hcheck] at h
    cases hgate : Gate.make settings.gate.maxInFlight with
    | error e =>
      rw [hgate] at h
      cases h
    | ok gate =>
      rw [hgate] at h
      cases h
      exact ⟨gate, rfl, rfl⟩

namespace Tidy

variable {s : Service σ}

/-- A service that was made is tidy. -/
theorem of_make (h : make settings = .ok s) : s.Tidy engine settings := by
  obtain ⟨gate, hgate, rfl⟩ := exists_gate_of_make h
  exact ⟨.ofGate hgate, Store.Truthful.empty settings.store, rfl, rfl⟩

/-- Valid settings make a service, which is tidy. -/
theorem exists_make (h : settings.check = .ok ()) :
    ∃ s : Service σ, make settings = .ok s ∧ s.Tidy engine settings := by
  obtain ⟨gate, hgate⟩ : ∃ gate, Gate.make settings.gate.maxInFlight = .ok gate := by
    unfold Settings.check at h
    split at h
    · cases h
    · rename_i hpositive
      exact ⟨_, if_neg hpositive⟩
  have hmake : make settings = .ok (⟨settings, .ofGate gate, .empty settings.store, 0, 0⟩ :
      Service σ) := by
    rw [make, h, hgate]
    rfl
  exact ⟨_, hmake, of_make hmake⟩

/-- Results may lapse in any way. -/
theorem lapsing (h : s.Tidy engine settings) (lapsed : Nat → Key → Bool) :
    (s.lapsing lapsed).Tidy engine settings :=
  ⟨h.pool, h.store, h.limits, h.classification⟩

/-- Only the limits and the settings of the classification matter. -/
theorem congr {other : Settings} (h : s.Tidy engine other)
    (hlimits : other.limits = settings.limits)
    (hclassification : other.classification = settings.classification) :
    s.Tidy engine settings :=
  ⟨h.pool, h.store, h.limits.trans hlimits, h.classification.trans hclassification⟩

/-- A request to stop leaves the service tidy. -/
theorem cancel (h : s.Tidy engine settings) (hengine : engine.Renewable) :
    (s.cancel engine).Tidy engine settings :=
  ⟨h.pool.requestStop hengine, h.store, h.limits, h.classification⟩

/-- Forgetting the results leaves the service tidy. -/
theorem forget (h : s.Tidy engine settings) : s.forget.Tidy engine settings :=
  ⟨h.pool, fun _ hentry => (nomatch hentry), h.limits, h.classification⟩

end Tidy

end Service

end Reckoner
