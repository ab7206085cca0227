import Reckoner.Proofs.Service.Recording

/-!
# Services in lockstep

Two services, over engines that may be different, are in lockstep if reading, looking up and
displaying keep them related and end alike on both. Then both answer every request alike that does
not make them forget, and stay related.
-/

namespace Reckoner.Service

variable {σ τ : Type} {engine : Engine σ} {engine' : Engine τ}

/-- Answer a call from the store, or compute it. -/
def Key.ask (engine : Engine σ) (key : Key) : Task σ Evaluation :=
  lookup key (inPool (key.compute engine))

/-! ## Tasks in step -/

/-- From related services, two tasks end alike and lead to related services. -/
def InStep (R : Service σ → Service τ → Prop) {α : Type} (t : Task σ α) (t' : Task τ α) : Prop :=
  ∀ s s', R s s' → (t.run.run s).1 = (t'.run.run s').1 ∧ R (t.run.run s).2 (t'.run.run s').2

namespace InStep

variable {R : Service σ → Service τ → Prop} {α β : Type} {t : Task σ α} {t' : Task τ α}
  {f : α → Task σ β} {f' : α → Task τ β}

protected theorem pure (a : α) : InStep R (pure a) (pure a) := fun _ _ hs => ⟨rfl, hs⟩

protected theorem throw (e : Failure) : InStep R (throw e : Task σ α) (throw e : Task τ α) :=
  fun _ _ hs => ⟨rfl, hs⟩

/-- Tasks in step may be followed by tasks in step. -/
theorem bind (ht : InStep R t t') (hf : ∀ a, InStep R (f a) (f' a)) :
    InStep R (t >>= f) (t' >>= f') := by
  intro s s' hs
  obtain ⟨heq, hnext⟩ := ht s s' hs
  cases hrun : t.run.run s with
  | mk outcome u =>
    cases hrun' : t'.run.run s' with
    | mk outcome' u' =>
      rw [hrun, hrun'] at heq hnext
      cases heq
      cases outcome with
      | ok a =>
        rw [run_bind_of_ok hrun, run_bind_of_ok hrun']
        exact hf a u u' hnext
      | error e =>
        rw [run_bind_of_error hrun, run_bind_of_error hrun']
        exact ⟨rfl, hnext⟩

/-- Two tasks that look at their services first. -/
theorem read {f : Service σ → Task σ α} {f' : Service τ → Task τ α}
    (h : ∀ s s', R s s' → InStep R (f s) (f' s')) :
    InStep R (getThe (Service σ) >>= f) (getThe (Service τ) >>= f') :=
  fun s s' hs => h s s' hs s s' hs

/-- A failure is dealt with alike. -/
protected theorem tryCatch {handle : Failure → Task σ α} {handle' : Failure → Task τ α}
    (ht : InStep R t t') (hhandle : ∀ e, InStep R (handle e) (handle' e)) :
    InStep R (tryCatch t handle) (tryCatch t' handle') := by
  intro s s' hs
  obtain ⟨heq, hnext⟩ := ht s s' hs
  cases hrun : t.run.run s with
  | mk outcome u =>
    cases hrun' : t'.run.run s' with
    | mk outcome' u' =>
      rw [hrun, hrun'] at heq hnext
      cases heq
      cases outcome with
      | ok a =>
        rw [run_tryCatch_of_ok hrun, run_tryCatch_of_ok hrun']
        exact ⟨rfl, hnext⟩
      | error e =>
        rw [run_tryCatch_of_error hrun, run_tryCatch_of_error hrun']
        exact hhandle e u u' hnext

end InStep

/-! ## Services in lockstep -/

/-- The calls of two services keep them related. -/
structure Lockstep (engine : Engine σ) (engine' : Engine τ) (R : Service σ → Service τ → Prop) :
    Prop where
  /-- The limits are the same. -/
  limits : ∀ {s s'}, R s s' → s.settings.limits = s'.settings.limits
  /-- The classification is set alike. -/
  classification : ∀ {s s'}, R s s' → s.settings.classification = s'.settings.classification
  /-- Texts are read alike. -/
  validateSyntax : ∀ text, InStep R (validateSyntax engine text) (validateSyntax engine' text)
  /-- Lookups have the same result. -/
  ask : ∀ key, InStep R (Key.ask engine key) (Key.ask engine' key)
  /-- Results are displayed alike. -/
  display : ∀ r, InStep R (display engine r) (display engine' r)
  /-- Both can be asked to stop. -/
  cancel : ∀ {s s'}, R s s' → R (s.cancel engine) (s'.cancel engine')

namespace Lockstep

variable {R : Service σ → Service τ → Prop}

/-- Symbolic values are computed in step. -/
theorem evaluate (h : Lockstep engine engine' R) (text : String) :
    InStep R (Service.evaluate engine text) (Service.evaluate engine' text) :=
  h.ask (.evaluate text)

/-- Approximate values are computed in step. -/
theorem calculate (h : Lockstep engine engine' R) (text : String) (places : Nat) :
    InStep R (Service.calculate engine text places) (Service.calculate engine' text places) :=
  h.ask (.calculate text places)

/-- Graphs are drawn in step. -/
theorem draw (h : Lockstep engine engine' R) (text axis origin bound : String) :
    InStep R (Service.draw engine text axis origin bound)
      (Service.draw engine' text axis origin bound) :=
  h.ask (.draw text axis origin bound)

/-- Texts are validated in step. -/
theorem validate (h : Lockstep engine engine' R) (expression : String) :
    InStep R (Service.validate engine expression) (Service.validate engine' expression) := by
  unfold Service.validate
  dsimp only
  split
  · exact .throw _
  · exact .throw _
  · exact (h.validateSyntax _).bind fun _ => .pure _

/-- Texts are validated or refused in step. -/
theorem validateOrRefuse (h : Lockstep engine engine' R) (expression : String) :
    InStep R (Service.validateOrRefuse engine expression)
      (Service.validateOrRefuse engine' expression) := by
  unfold Service.validateOrRefuse
  refine InStep.bind (InStep.tryCatch ?_ fun e => ?_) fun r => ?_
  · exact (h.validate expression).bind fun _ => .pure _
  · split
    · exact .pure _
    · exact .throw e
  · cases r with
    | ok value => exact .pure _
    | error early => exact .pure _

/-- Texts are classified in step. -/
theorem classify (h : Lockstep engine engine' R) (places : Nat) (expression : String) :
    InStep R (Service.classify engine places expression)
      (Service.classify engine' places expression) := by
  unfold Service.classify
  dsimp only
  split
  · exact .pure _
  split
  · exact .pure _
  refine (h.evaluate _).bind fun value => ?_
  split
  · refine (h.calculate _ places).bind fun approximation => ?_
    split
    · exact .pure _
    · exact .pure _
  all_goals exact .pure _

/-- The strategies compute in step. -/
theorem strategy (h : Lockstep engine engine' R) (text : String) (p : Parameters)
    (strategy : Strategy) :
    InStep R (strategy.run engine text p) (strategy.run engine' text p) := by
  have hdrawing : InStep R (Strategy.drawing engine text p) (Strategy.drawing engine' text p) :=
    (h.draw text _ _ _).bind fun _ => .pure _
  cases strategy with
  | plot shape =>
    refine (h.evaluate text).bind fun value => ?_
    exact hdrawing.bind fun _ => .pure _
  | symbolic shape => exact (h.evaluate text).bind fun _ => .pure _
  | display shape =>
    refine (h.evaluate text).bind fun value => ?_
    split
    · exact .pure _
    · exact (h.display value).bind fun _ => .pure _
  | numeric =>
    refine (h.evaluate text).bind fun value => ?_
    refine (h.calculate text p.places).bind fun approximation => ?_
    exact hdrawing.bind fun _ => .pure _
  | assignment => exact .pure _

/-- Results of any shape are computed in step. -/
theorem dispatch (h : Lockstep engine engine' R) (t : Table) (shape : Shape) (text : String)
    (p : Parameters) :
    InStep R (t.dispatch engine shape text p) (t.dispatch engine' shape text p) := by
  unfold Table.dispatch
  split
  · exact h.strategy text p _
  · exact .throw _

/-- Substituted expressions are evaluated in step. -/
theorem evaluateSubstituted (h : Lockstep engine engine' R) (memory : Memory)
    (expression substituted : String) (p : Parameters) :
    InStep R (Service.evaluateSubstituted engine memory expression substituted p)
      (Service.evaluateSubstituted engine' memory expression substituted p) := by
  unfold Service.evaluateSubstituted
  refine (h.validateOrRefuse substituted).bind fun checked => ?_
  cases checked with
  | error e => exact .pure _
  | ok text =>
    refine .read fun s s' hs => ?_
    rw [h.classification hs]
    refine (h.classify _ text).bind fun shape => ?_
    dsimp only
    split
    · exact .pure _
    · exact (h.dispatch _ shape text p).bind fun _ => .pure _

/-- Expressions are evaluated in step. -/
theorem evaluateOne (h : Lockstep engine engine' R) (p : Parameters) (memory : Memory)
    (expression : String) :
    InStep R (Service.evaluateOne engine p memory expression)
      (Service.evaluateOne engine' p memory expression) := by
  unfold Service.evaluateOne
  refine .read fun s s' hs => ?_
  dsimp only
  rw [h.limits hs]
  split
  · exact .pure _
  split
  · exact .pure _
  split
  · exact (h.dispatch _ _ _ _).bind fun _ => .pure _
  · exact (h.evaluateSubstituted _ _ _ _).bind fun _ => .pure _

/-- Lists of expressions are evaluated in step. -/
theorem evaluateAll (h : Lockstep engine engine' R) (p : Parameters) (memory : Memory)
    (expressions : List String) :
    InStep R (Service.evaluateAll engine p memory expressions)
      (Service.evaluateAll engine' p memory expressions) := by
  induction expressions generalizing memory with
  | nil => exact .pure _
  | cons expression rest ih =>
    refine (h.evaluateOne p memory expression).bind fun one => ?_
    exact (ih one.2).bind fun _ => .pure _

/-- Batches are evaluated in step. -/
theorem evaluateBatch (h : Lockstep engine engine' R) (p : Parameters)
    (expressions : List String) :
    InStep R (Service.evaluateBatch engine p expressions)
      (Service.evaluateBatch engine' p expressions) := by
  unfold Service.evaluateBatch
  refine .read fun s s' hs => ?_
  dsimp only
  rw [h.limits hs]
  split
  · exact .throw _
  · exact h.evaluateAll p .initial expressions

/-- Expressions without a memory are classified in step. -/
theorem classifyAlone (h : Lockstep engine engine' R) (expression : String) :
    InStep R (Service.classifyAlone engine expression)
      (Service.classifyAlone engine' expression) := by
  unfold Service.classifyAlone
  split
  · exact .pure _
  split
  · exact .pure _
  · refine (h.validate _).bind fun text => .read fun s s' hs => ?_
    rw [h.classification hs]
    exact h.classify _ text

variable {s : Service σ} {s' : Service τ}

/-- Related services answer requests alike and stay related. -/
theorem serve (h : Lockstep engine engine' R) (hs : R s s') {request : Request}
    (hrequest : request ≠ .forget) :
    (s.serve engine request).1 = (s'.serve engine' request).1 ∧
      R (s.serve engine request).2 (s'.serve engine' request).2 := by
  cases request with
  | evaluate expressions p =>
    obtain ⟨heq, hnext⟩ := h.evaluateBatch p expressions s s' hs
    exact ⟨congrArg Answer.records heq, hnext⟩
  | classify expression =>
    obtain ⟨heq, hnext⟩ := h.classifyAlone expression s s' hs
    exact ⟨congrArg Answer.shape heq, hnext⟩
  | validate expression =>
    obtain ⟨heq, hnext⟩ := h.validate expression s s' hs
    exact ⟨congrArg Answer.text heq, hnext⟩
  | cancel => exact ⟨rfl, h.cancel hs⟩
  | forget => exact absurd rfl hrequest

end Lockstep

end Reckoner.Service
