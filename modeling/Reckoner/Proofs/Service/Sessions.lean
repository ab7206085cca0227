import Reckoner.Proofs.Service.Outcomes
import Reckoner.Service.Session

/-!
# Sessions leave no trace

A service stays tidy from one request to the next, whatever it is asked for and whatever lapses. So
an answer depends on the request and the limits of the service alone: it is the one that a new
service gives which stores nothing.
-/

namespace Reckoner.Service

variable {σ : Type} {engine : Engine σ} {settings : Settings}

/-- A request has the same answer on all tidy services, and leaves them tidy. -/
theorem exists_answer (hengine : engine.Renewable) (settings : Settings) (request : Request) :
    ∃ answer, ∀ s : Service σ, s.Tidy engine settings →
      ∃ s' : Service σ, s.serve engine request = (answer, s') ∧ s'.Tidy engine settings := by
  cases request with
  | evaluate expressions p =>
    obtain ⟨outcome, -, hone⟩ := exists_outcome hengine settings p
    obtain ⟨records, -, hrun⟩ := steady_evaluateBatch hone expressions
    refine ⟨.records records, fun s hs => ?_⟩
    obtain ⟨s', heq, hs'⟩ := hrun s hs
    have hbatch : (Service.evaluateBatch engine p expressions).run s = (records, s') := heq
    exact ⟨s', by simp only [serve, hbatch], hs'⟩
  | classify expression =>
    obtain ⟨shape, -, hrun⟩ := steady_classifyAlone hengine expression
    refine ⟨.shape shape, fun s hs => ?_⟩
    obtain ⟨s', heq, hs'⟩ := hrun s hs
    have hclassify : (classifyAlone engine expression).run s = (shape, s') := heq
    exact ⟨s', by simp only [serve, hclassify], hs'⟩
  | validate expression =>
    obtain ⟨text, -, hrun⟩ := steady_validate hengine expression
    refine ⟨.text text, fun s hs => ?_⟩
    obtain ⟨s', heq, hs'⟩ := hrun s hs
    have hvalidate : (Service.validate engine expression).run s = (text, s') := heq
    exact ⟨s', by simp only [serve, hvalidate], hs'⟩
  | cancel => exact ⟨.done, fun s hs => ⟨s.cancel engine, rfl, hs.cancel hengine⟩⟩
  | forget => exact ⟨.done, fun s hs => ⟨s.forget, rfl, hs.forget⟩⟩

variable {s fresh : Service σ}

/-- A service stays tidy over a request. -/
theorem Tidy.serve (hs : s.Tidy engine settings) (hengine : engine.Renewable)
    (request : Request) :
    (s.serve engine request).2.Tidy engine settings := by
  obtain ⟨answer, hanswer⟩ := exists_answer hengine settings request
  obtain ⟨s', heq, hs'⟩ := hanswer s hs
  rw [heq]
  exact hs'

/-- Two tidy services answer a request alike. -/
theorem Tidy.serve_eq (hs : s.Tidy engine settings) (hfresh : fresh.Tidy engine settings)
    (hengine : engine.Renewable) (request : Request) :
    (s.serve engine request).1 = (fresh.serve engine request).1 := by
  obtain ⟨answer, hanswer⟩ := exists_answer hengine settings request
  obtain ⟨s', heq, -⟩ := hanswer s hs
  obtain ⟨t', heq', -⟩ := hanswer fresh hfresh
  rw [heq, heq']

/-- A service stays tidy over a session. -/
theorem Tidy.session (hs : s.Tidy engine settings) (hengine : engine.Renewable)
    (requests : List Request) :
    (s.session engine requests).2.Tidy engine settings := by
  induction requests generalizing s with
  | nil => exact hs
  | cons request rest ih => exact ih (hs.serve hengine request)

/-- The answers of a session are those to single requests. -/
theorem Tidy.session_eq (hs : s.Tidy engine settings) (hfresh : fresh.Tidy engine settings)
    (hengine : engine.Renewable) (requests : List Request) :
    (s.session engine requests).1 = requests.map fun request => (fresh.serve engine request).1 := by
  induction requests generalizing s with
  | nil => rfl
  | cons request rest ih =>
    have hhead := hs.serve_eq hfresh hengine request
    have htail := ih (hs.serve hengine request)
    exact congrArg₂ List.cons hhead htail

/-- Nothing is stored under the second settings, which have the limits and the classification of
the first. -/
structure Unstored (settings plain : Settings) : Prop where
  /-- The limits are the same. -/
  limits : plain.limits = settings.limits
  /-- The classification is the same. -/
  classification : plain.classification = settings.classification
  /-- Nothing is stored. -/
  backend : plain.store.backend = .disabled

/-- A service answers whatever it is asked for, and whatever lapses, as a new service does that
stores nothing. -/
theorem session_eq_unstored {settings plain : Settings} (hvalid : settings.check = .ok ())
    (hplain : plain.check = .ok ()) (h : Unstored settings plain) :
    ∃ s fresh : Service Builtin.State, make settings = .ok s ∧ make plain = .ok fresh ∧
      ∀ (lapsed : Nat → Key → Bool) (requests : List Request),
        ((s.lapsing lapsed).session Engine.builtin requests).1 =
          requests.map fun request => (fresh.serve Engine.builtin request).1 := by
  have hengine := Engine.builtin_renewable
  obtain ⟨s, hmake, hs⟩ := Tidy.exists_make hvalid
  obtain ⟨fresh, hmake', hfresh⟩ := Tidy.exists_make hplain
  refine ⟨s, fresh, hmake, hmake', ?_⟩
  intro lapsed requests
  have hfresh' : fresh.Tidy Engine.builtin settings := hfresh.congr h.limits h.classification
  exact (hs.lapsing lapsed).session_eq hfresh' hengine requests

/-- Every other lookup finds its result lapsed, and a batch is repeated behind requests to stop and
to forget. -/
theorem session_eq_unstored_repeated :
    ∃ s fresh : Service Builtin.State, make {} = .ok s ∧
      make { store := { backend := .disabled } } = .ok fresh ∧
      ((s.lapsing fun n _ => n % 2 == 0).session Engine.builtin
        [.evaluate ["a=1/3", "a+2", "a)"] {}, .cancel, .evaluate ["1/3+2", "a"] {}, .forget,
          .validate "1/3+2", .classify "1/3+2", .evaluate ["1/3+2"] { places := 2 }]).1 =
        ([.evaluate ["a=1/3", "a+2", "a)"] {}, .cancel, .evaluate ["1/3+2", "a"] {}, .forget,
          .validate "1/3+2", .classify "1/3+2", .evaluate ["1/3+2"] { places := 2 }].map
            fun request => (fresh.serve Engine.builtin request).1) := by
  have hplain : Unstored {} { store := { backend := .disabled } } := ⟨rfl, rfl, rfl⟩
  obtain ⟨s, fresh, hs, hfresh, h⟩ := session_eq_unstored rfl rfl hplain
  exact ⟨s, fresh, hs, hfresh, h _ _⟩

end Reckoner.Service
