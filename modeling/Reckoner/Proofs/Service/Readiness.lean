import Reckoner.Proofs.Service.Invariants
import Reckoner.Proofs.Service.Outcomes

/-!
# Services that are ready

Requests come one after another, so between them no call runs and every token is free, whatever the
engines are. A service that is ready lets every call through: computations and the display always
give a result, and a validation fails only for the sake of the expression. Only a blank text has a
shape for which nothing is computed.
-/

namespace Reckoner.Service

variable {σ : Type}

/-! ## The gate -/

/-- There are tokens, and nobody holds one. -/
structure Gate.Ready (g : Gate) : Prop where
  /-- There are tokens. -/
  positive : 0 < g.capacity
  /-- Nobody holds a token. -/
  free : g.free = g.capacity

/-- A new gate has all its tokens. -/
theorem Gate.ready_of_make {capacity : Nat} {g : Gate} (h : Gate.make capacity = .ok g) :
    g.Ready := by
  unfold Gate.make at h
  split at h
  · cases h
  · cases h
    exact ⟨Nat.pos_of_ne_zero ‹_›, rfl⟩

namespace Pool

variable {p : Pool σ} (engine : Engine σ)

/-- A call that may start gives its token back, whatever comes out. -/
theorem exists_run_of_ready (h : p.gate.Ready) {α : Type} (operation : String)
    (call : σ → Except EngineError α × σ) :
    ∃ outcome q, p.run engine operation call = (.ok outcome, q) ∧ q.gate = p.gate := by
  obtain ⟨q, hrun, hgate, -⟩ := exists_run engine h.positive h.free operation call
  exact ⟨_, q, hrun, hgate⟩

/-- With a token to take a computation has a result. -/
theorem exists_compute (h : p.gate.Ready) (operation text : String)
    (call : σ → Except EngineError Evaluation × σ) :
    ∃ result q, p.compute engine operation text call = (.ok result, q) ∧ q.gate = p.gate := by
  obtain ⟨outcome, q, hrun, hgate⟩ := exists_run_of_ready engine h operation call
  refine ⟨.ofOutcome text outcome, q, ?_, hgate⟩
  rw [compute, hrun]
  rfl

/-- With a token to take a result is displayed. -/
theorem exists_display (h : p.gate.Ready) (r : Evaluation) :
    ∃ shown q, p.display engine r = (.ok shown, q) ∧ q.gate = p.gate := by
  obtain ⟨outcome, q, hrun, hgate⟩ :=
    exists_run_of_ready engine h "format_for_display" (engine.display r.text)
  rw [display, hrun]
  cases outcome with
  | ok text => exact ⟨_, q, rfl, hgate⟩
  | error e => exact ⟨_, q, rfl, hgate⟩

/-- A text that is refused does not end a batch. -/
theorem exists_validate (h : p.gate.Ready) (text : String) :
    ∃ outcome q, p.validate engine text = (outcome, q) ∧ q.gate = p.gate ∧
      ∀ e, outcome = .error e → e.isRecoverable = true := by
  obtain ⟨outcome, q, hrun, hgate⟩ :=
    exists_run_of_ready engine h "validate_syntax" (engine.validate text)
  rw [validate, hrun]
  cases outcome with
  | ok canonical => exact ⟨_, q, rfl, hgate, fun _ h => by cases h⟩
  | error e => cases e <;> exact ⟨_, q, rfl, hgate, fun _ he => by cases he; rfl⟩

end Pool

/-! ## Tasks that succeed -/

/-- No call runs in the service, whose settings are the given ones. -/
structure Ready (settings : Settings) (s : Service σ) : Prop where
  /-- The gate has all its tokens. -/
  gate : s.pool.gate.Ready
  /-- The settings are those that the service was made from. -/
  settings_eq : s.settings = settings

/-- From services that are ready the task leads to such services, with a result that has a
property. -/
def Succeeds (settings : Settings) {α : Type} (t : Task σ α) (Q : α → Prop) : Prop :=
  ∀ s, Ready settings s → ∃ a s', t.run.run s = (.ok a, s') ∧ Ready settings s' ∧ Q a

variable {settings : Settings}

namespace Succeeds

variable {α β : Type} {t : Task σ α} {f : α → Task σ β} {Q : α → Prop} {R : β → Prop}

protected theorem pure {a : α} (h : Q a) : Succeeds settings (pure a : Task σ α) Q :=
  fun s hs => ⟨a, s, rfl, hs, h⟩

/-- Tasks that succeed do so one after the other. -/
theorem bind (ht : Succeeds settings t Q) (hf : ∀ a, Q a → Succeeds settings (f a) R) :
    Succeeds settings (t >>= f) R := by
  intro s hs
  obtain ⟨a, s', hrun, hs', ha⟩ := ht s hs
  obtain ⟨b, s'', hrun', hs'', hb⟩ := hf a ha s' hs'
  exact ⟨b, s'', (run_bind_of_ok hrun).trans hrun', hs'', hb⟩

/-- A task that succeeds keeps the service ready. -/
theorem keeps (h : Succeeds settings t Q) : Keeps (Ready settings) t Q := by
  intro s hs
  obtain ⟨a, s', hrun, hs', ha⟩ := h s hs
  rw [hrun]
  refine ⟨hs', ?_⟩
  rintro _ ⟨⟩
  exact ha

end Succeeds

/-! ## The calls of a service -/

/-- A call to the pool succeeds, if it gives its token back. -/
theorem succeeds_inPool {α : Type} {call : Pool σ → Except Failure α × Pool σ}
    (h : ∀ p : Pool σ, p.gate.Ready → ∃ a q, call p = (.ok a, q) ∧ q.gate = p.gate) :
    Succeeds settings (inPool call) fun _ => True := by
  intro s hs
  obtain ⟨a, q, hcall, hgate⟩ := h s.pool hs.gate
  refine ⟨a, { s with pool := q }, ?_, ⟨?_, hs.settings_eq⟩, trivial⟩
  · rw [run_inPool, hcall]
  · exact hgate ▸ hs.gate

/-- A lookup succeeds whether the store has an answer or not. -/
theorem succeeds_lookup {key : Key} {compute : Task σ Call}
    (h : Succeeds settings compute fun _ => True) :
    Succeeds settings (lookup key compute) fun _ => True := by
  intro s hs
  cases hget : s.store.get? key with
  | some result =>
    exact ⟨result, _, run_lookup_of_some hget, ⟨hs.gate, hs.settings_eq⟩, trivial⟩
  | none =>
    obtain ⟨call, s', hrun, hs', -⟩ := h s hs
    exact ⟨_, _, run_lookup_of_ok hget hrun, ⟨hs'.gate, hs'.settings_eq⟩, trivial⟩

variable (engine : Engine σ)

/-- A symbolic value is computed. -/
theorem succeeds_evaluate (text : String) :
    Succeeds settings (evaluate engine text) fun _ => True :=
  succeeds_lookup (succeeds_inPool fun _ hp => Pool.exists_compute engine hp _ _ _)

/-- An approximate value is computed. -/
theorem succeeds_calculate (text : String) (places : Nat) :
    Succeeds settings (calculate engine text places) fun _ => True :=
  succeeds_lookup (succeeds_inPool fun _ hp => Pool.exists_compute engine hp _ _ _)

/-- A graph is drawn. -/
theorem succeeds_draw (text axis origin bound : String) :
    Succeeds settings (draw engine text axis origin bound) fun _ => True :=
  succeeds_lookup (succeeds_inPool fun _ hp => Pool.exists_compute engine hp _ _ _)

/-- A result is displayed. -/
theorem succeeds_display (r : Evaluation) :
    Succeeds settings (display engine r) fun _ => True :=
  succeeds_inPool fun _ hp => Pool.exists_display engine hp r

/-- A validation gives the normal form, or fails for the sake of the expression. -/
theorem exists_validate {s : Service σ} (hs : Ready settings s) (expression : String) :
    ∃ outcome s', (validate engine expression).run.run s = (outcome, s') ∧ Ready settings s' ∧
      (∀ text, outcome = .ok text → text = Validation.normalize expression) ∧
      ∀ e, outcome = .error e → e.isRecoverable = true := by
  unfold validate
  dsimp only
  cases hgrammar : Validation.checkGrammar (Validation.normalize expression) with
  | error e =>
    refine ⟨.error e, s, rfl, hs, (fun _ h => by cases h), ?_⟩
    rintro _ ⟨⟩
    exact isRecoverable_of_checkGrammar hgrammar
  | ok =>
    cases hsemantics : Validation.checkSemantics (Validation.normalize expression) with
    | error e =>
      refine ⟨.error e, s, rfl, hs, (fun _ h => by cases h), ?_⟩
      rintro _ ⟨⟩
      exact isRecoverable_of_checkSemantics hsemantics
    | ok =>
      obtain ⟨outcome, q, hcall, hgate, he⟩ :=
        Pool.exists_validate engine hs.gate (Validation.normalize expression)
      have hs' : Ready settings { s with pool := q } := ⟨hgate ▸ hs.gate, hs.settings_eq⟩
      have hrun : (validateSyntax engine (Validation.normalize expression)).run.run s =
          (outcome, { s with pool := q }) := by
        rw [validateSyntax, run_inPool, hcall]
      cases outcome with
      | ok canonical =>
        refine ⟨_, _, run_bind_of_ok hrun, hs', ?_, fun _ h => by cases h⟩
        rintro _ ⟨⟩
        rfl
      | error e =>
        refine ⟨_, _, run_bind_of_error hrun, hs', (fun _ h => by cases h), ?_⟩
        rintro _ ⟨⟩
        exact he e rfl

end Reckoner.Service
