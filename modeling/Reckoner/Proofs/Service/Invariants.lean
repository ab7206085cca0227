import Reckoner.Proofs.Service.Tidiness
import Reckoner.Service.Session

/-!
# Invariants of services

Whatever a service is asked for comes down to a few calls: the validation of an expression, the
computations on a text that was validated, the display of a result, and the requests to stop and to
forget. What these calls keep, every request keeps, and so does every session.
-/

namespace Reckoner.Service

variable {σ : Type} {engine : Engine σ}

/-! ## Tasks that keep an invariant -/

/-- A task leads from services with an invariant to such services, however it ends, and its
results have a property. -/
def Keeps (I : Service σ → Prop) {α : Type} (t : Task σ α) (Q : α → Prop) : Prop :=
  ∀ s, I s → I (t.run.run s).2 ∧ ∀ a, (t.run.run s).1 = .ok a → Q a

namespace Keeps

variable {I : Service σ → Prop} {α β : Type} {t : Task σ α} {f : α → Task σ β}
  {Q : α → Prop} {R : β → Prop}

protected theorem pure {a : α} (h : Q a) : Keeps I (pure a) Q := by
  rintro s hs
  refine ⟨hs, ?_⟩
  rintro _ ⟨⟩
  exact h

protected theorem throw (e : Failure) : Keeps I (throw e) Q :=
  fun _ hs => ⟨hs, nofun⟩

theorem mono (h : Keeps I t Q) {R : α → Prop} (hQR : ∀ a, Q a → R a) : Keeps I t R :=
  fun s hs => ⟨(h s hs).1, fun a ha => hQR a ((h s hs).2 a ha)⟩

/-- One task after another; where the first fails, its state is the last. -/
theorem bind (ht : Keeps I t Q) (hf : ∀ a, Q a → Keeps I (f a) R) : Keeps I (t >>= f) R := by
  intro s hs
  obtain ⟨hI, hQ⟩ := ht s hs
  cases hrun : t.run.run s with
  | mk outcome s' =>
    rw [hrun] at hI hQ
    cases outcome with
    | ok a =>
      rw [run_bind_of_ok hrun]
      exact hf a (hQ a rfl) s' hI
    | error e =>
      rw [run_bind_of_error hrun]
      exact ⟨hI, nofun⟩

/-- A task that looks at the service first. -/
theorem read {f : Service σ → Task σ α} (h : ∀ s, I s → Keeps I (f s) Q) :
    Keeps I (getThe (Service σ) >>= f) Q :=
  fun s hs => h s hs s hs

/-- A failure is dealt with where it left the service. -/
protected theorem tryCatch {handle : Failure → Task σ α} (ht : Keeps I t Q)
    (hhandle : ∀ e, Keeps I (handle e) Q) : Keeps I (tryCatch t handle) Q := by
  intro s hs
  obtain ⟨hI, hQ⟩ := ht s hs
  cases hrun : t.run.run s with
  | mk outcome s' =>
    rw [hrun] at hI hQ
    cases outcome with
    | ok a =>
      rw [run_tryCatch_of_ok hrun]
      exact ⟨hI, hQ⟩
    | error e =>
      rw [run_tryCatch_of_error hrun]
      exact hhandle e s' hI

end Keeps

/-- A steady task keeps services tidy. -/
theorem Steady.keeps {settings : Settings} {α : Type} {t : Task σ α} {P : Except Failure α → Prop}
    (h : Steady engine settings t P) : Keeps (Tidy engine settings) t fun a => P (.ok a) := by
  obtain ⟨outcome, hP, hrun⟩ := h
  intro s hs
  obtain ⟨s', heq, hs'⟩ := hrun s hs
  rw [heq]
  exact ⟨hs', fun a ha => by cases ha; exact hP⟩

/-! ## Calls that keep an invariant -/

/-- The calls of a service keep the invariant, those that compute on texts with the property, which
validated texts have. -/
structure Preserved (engine : Engine σ) (P : String → Prop) (I : Service σ → Prop) : Prop where
  /-- What validation gives has the property. -/
  validate : ∀ expression, Keeps I (validate engine expression) P
  /-- Dropping blanks keeps the property. -/
  dropBlanks : ∀ {text}, P text → P (String.ofList (Text.dropBlanks text.toList))
  /-- The symbolic value is computed for texts with the property. -/
  evaluate : ∀ {text}, P text → Keeps I (evaluate engine text) fun _ => True
  /-- So is the approximate value. -/
  calculate : ∀ {text}, P text → ∀ places, Keeps I (calculate engine text places) fun _ => True
  /-- So is the graph. -/
  draw : ∀ {text}, P text → ∀ axis origin bound,
    Keeps I (draw engine text axis origin bound) fun _ => True
  /-- Any result can be displayed. -/
  display : ∀ r, Keeps I (display engine r) fun _ => True
  /-- The service can be asked to stop. -/
  cancel : ∀ {s}, I s → I (s.cancel engine)
  /-- The service can be asked to forget. -/
  forget : ∀ {s}, I s → I s.forget

namespace Preserved

variable {P : String → Prop} {I : Service σ → Prop} {text : String}

/-- The classification computes the text without its blanks. -/
theorem classify (hI : Preserved engine P I) (h : P text) (places : Nat) :
    Keeps I (Service.classify engine places text) fun _ => True := by
  unfold Service.classify
  dsimp only
  split
  · exact .pure trivial
  split
  · exact .pure trivial
  refine (hI.evaluate (hI.dropBlanks h)).bind fun value _ => ?_
  split
  · refine (hI.calculate (hI.dropBlanks h) places).bind fun approximation _ => ?_
    split
    · exact .pure trivial
    · exact .pure trivial
  all_goals exact .pure trivial

/-- A strategy computes the text itself. -/
theorem strategy (hI : Preserved engine P I) (h : P text) (p : Parameters) (strategy : Strategy) :
    Keeps I (strategy.run engine text p) fun _ => True := by
  have hdrawing : Keeps I (Strategy.drawing engine text p) fun _ => True :=
    (hI.draw h _ _ _).bind fun _ _ => .pure trivial
  cases strategy with
  | plot shape =>
    refine (hI.evaluate h).bind fun value _ => ?_
    exact hdrawing.bind fun _ _ => .pure trivial
  | symbolic shape => exact (hI.evaluate h).bind fun _ _ => .pure trivial
  | display shape =>
    refine (hI.evaluate h).bind fun value _ => ?_
    split
    · exact .pure trivial
    · exact (hI.display value).bind fun _ _ => .pure trivial
  | numeric =>
    refine (hI.evaluate h).bind fun value _ => ?_
    refine (hI.calculate h p.places).bind fun approximation _ => ?_
    exact hdrawing.bind fun _ _ => .pure trivial
  | assignment => exact .pure trivial

/-- Results of any shape are computed within the invariant. -/
theorem dispatch (hI : Preserved engine P I) (h : P text) (t : Table) (shape : Shape)
    (p : Parameters) : Keeps I (t.dispatch engine shape text p) fun _ => True := by
  unfold Table.dispatch
  split
  · exact hI.strategy h p _
  · exact .throw _

/-- What is not refused has the property. -/
theorem validateOrRefuse (hI : Preserved engine P I) (expression : String) :
    Keeps I (Service.validateOrRefuse engine expression) fun checked =>
      ∀ text, checked = .ok text → P text := by
  unfold Service.validateOrRefuse
  refine Keeps.bind (Q := fun r => ∃ checked : Except Failure String, r = .error checked ∧
    ∀ text, checked = .ok text → P text) (Keeps.tryCatch ?_ fun e => ?_) ?_
  · refine (hI.validate expression).bind fun text htext => .pure ⟨.ok text, rfl, ?_⟩
    rintro _ ⟨⟩
    exact htext
  · split
    · exact .pure ⟨.error e, rfl, nofun⟩
    · exact .throw e
  · rintro _ ⟨checked, rfl, hchecked⟩
    exact .pure hchecked

/-! ## Requests -/

/-- Behind the validation, only the validated text is computed. -/
theorem evaluateSubstituted (hI : Preserved engine P I) (memory : Memory)
    (expression substituted : String) (p : Parameters) :
    Keeps I (Service.evaluateSubstituted engine memory expression substituted p)
      fun _ => True := by
  unfold Service.evaluateSubstituted
  refine (hI.validateOrRefuse substituted).bind fun checked hchecked => ?_
  cases checked with
  | error e => exact .pure trivial
  | ok text =>
    have htext : P text := hchecked text rfl
    refine Keeps.read fun s _ => ?_
    refine (hI.classify htext _).bind fun shape _ => ?_
    dsimp only
    split
    · exact .pure trivial
    · exact (hI.dispatch htext _ _ _).bind fun _ _ => .pure trivial

/-- An assignment is taken in without a computation. -/
theorem dispatch_assignment (expression : String) (p : Parameters) :
    Keeps I (Table.standard.dispatch engine .assignment expression p) fun _ => True :=
  Keeps.pure (a := ([] : List TypedResult)) trivial

/-- An expression is evaluated within the invariant. -/
theorem evaluateOne (hI : Preserved engine P I) (p : Parameters) (memory : Memory)
    (expression : String) :
    Keeps I (Service.evaluateOne engine p memory expression) fun _ => True := by
  unfold Service.evaluateOne
  refine Keeps.read fun s _ => ?_
  dsimp only
  split
  · exact .pure trivial
  split
  · exact .pure trivial
  split
  · exact (dispatch_assignment expression p).bind fun _ _ => .pure trivial
  · exact (hI.evaluateSubstituted _ _ _ _).bind fun _ _ => .pure trivial

/-- Expressions are evaluated within the invariant. -/
theorem evaluateAll (hI : Preserved engine P I) (p : Parameters) (memory : Memory)
    (expressions : List String) :
    Keeps I (Service.evaluateAll engine p memory expressions) fun _ => True := by
  induction expressions generalizing memory with
  | nil => exact .pure trivial
  | cons expression rest ih =>
    refine (hI.evaluateOne p memory expression).bind fun one _ => ?_
    exact (ih one.2).bind fun _ _ => .pure trivial

/-- A batch is evaluated within the invariant. -/
theorem evaluateBatch (hI : Preserved engine P I) (p : Parameters) (expressions : List String) :
    Keeps I (Service.evaluateBatch engine p expressions) fun _ => True := by
  unfold Service.evaluateBatch
  refine Keeps.read fun s _ => ?_
  dsimp only
  split
  · exact .throw _
  · exact hI.evaluateAll p .initial expressions

/-- A text is classified within the invariant. -/
theorem classifyAlone (hI : Preserved engine P I) (expression : String) :
    Keeps I (Service.classifyAlone engine expression) fun _ => True := by
  unfold Service.classifyAlone
  split
  · exact .pure trivial
  split
  · exact .pure trivial
  · refine (hI.validate _).bind fun text htext => ?_
    exact Keeps.read fun s _ => hI.classify htext _

variable {s : Service σ}

/-- Every request keeps the invariant. -/
theorem serve (hI : Preserved engine P I) (hs : I s) (request : Request) :
    I (s.serve engine request).2 := by
  cases request with
  | evaluate expressions p => exact (hI.evaluateBatch p expressions s hs).1
  | classify expression => exact (hI.classifyAlone expression s hs).1
  | validate expression => exact (hI.validate expression s hs).1
  | cancel => exact hI.cancel hs
  | forget => exact hI.forget hs

/-- So does every session. -/
theorem session (hI : Preserved engine P I) (hs : I s) (requests : List Request) :
    I (s.session engine requests).2 := by
  induction requests generalizing s with
  | nil => exact hs
  | cons request rest ih => exact ih (hI.serve hs request)

end Preserved

end Reckoner.Service
