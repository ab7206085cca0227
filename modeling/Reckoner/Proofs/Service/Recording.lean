import Reckoner.Proofs.Engine.Stopping
import Reckoner.Proofs.Service.Readiness

/-!
# Recording engines

An engine is steadfast if it answers as a new one does whenever it was reset and requests to stop
are taken back, whatever else it may remember. So an engine can keep a log of its computations, and
any engine becomes one that does. Behind a call to a pool the logs of all engines together have
grown by that call if it is a computation, and not at all if it reads or displays a text.
-/

namespace Reckoner

open Service (Key)

variable {σ : Type}

/-! ## Engines -/

namespace Engine

/-- In this state the engine answers as a new one does. -/
structure AsNew (engine : Engine σ) (s : σ) : Prop where
  /-- It reads texts alike. -/
  validate : ∀ text, (engine.validate text s).1 = (engine.validate text engine.fresh).1
  /-- It gives the same symbolic values. -/
  evaluate : ∀ text, (engine.evaluate text s).1 = (engine.evaluate text engine.fresh).1
  /-- It gives the same approximate values. -/
  calculate : ∀ text places,
    (engine.calculate text places s).1 = (engine.calculate text places engine.fresh).1
  /-- It draws the same points. -/
  draw : ∀ text axis origin bound,
    (engine.draw text axis origin bound s).1 = (engine.draw text axis origin bound engine.fresh).1
  /-- It displays texts alike. -/
  display : ∀ text, (engine.display text s).1 = (engine.display text engine.fresh).1

/-- Nothing that an engine remembers over a reset shows in its answers, and it says that it was
stopped only when it was asked to. -/
structure Steadfast (engine : Engine σ) : Prop where
  /-- A new engine is one that nobody has asked to stop. -/
  clearStop_fresh : engine.AsNew (engine.clearStop engine.fresh)
  /-- What calls have left behind does not show once it is reset. -/
  clearStop_reset : ∀ s, engine.AsNew (engine.clearStop (engine.reset s))
  /-- A request to stop can be taken back. -/
  clearStop_requestStop : ∀ s, engine.AsNew (engine.clearStop s) →
    engine.AsNew (engine.clearStop (engine.requestStop s))
  /-- Nobody has asked a new engine to stop, and it does not say so. -/
  unstopped : ∀ key, (Key.answer engine key).stopped = false

/-- The computations that an engine has made stand in a log, the latest first. -/
structure Logs (engine : Engine σ) (log : σ → List Key) : Prop where
  /-- A new engine has made none. -/
  fresh : log engine.fresh = []
  /-- Taking back a request to stop is none. -/
  clearStop : ∀ s, log (engine.clearStop s) = log s
  /-- The log is kept over a reset. -/
  reset : ∀ s, log (engine.reset s) = log s
  /-- A request to stop is none. -/
  requestStop : ∀ s, log (engine.requestStop s) = log s
  /-- Reading a text is none. -/
  validate : ∀ text s, log (engine.validate text s).2 = log s
  /-- A symbolic value is computed. -/
  evaluate : ∀ text s, log (engine.evaluate text s).2 = .evaluate text :: log s
  /-- So is an approximate value. -/
  calculate : ∀ text places s,
    log (engine.calculate text places s).2 = .calculate text places :: log s
  /-- So is a drawing. -/
  draw : ∀ text axis origin bound s,
    log (engine.draw text axis origin bound s).2 = .draw text axis origin bound :: log s
  /-- Displaying a text is none. -/
  display : ∀ text s, log (engine.display text s).2 = log s

/-- Keep a log beside what a call has left behind. -/
def beside {α : Type} (log : List Key) (outcome : α × σ) : α × (σ × List Key) :=
  (outcome.1, outcome.2, log)

/-- The engine with a log of its computations. -/
def recording (engine : Engine σ) : Engine (σ × List Key) where
  fresh := (engine.fresh, [])
  validate text s := beside s.2 (engine.validate text s.1)
  evaluate text s := beside (.evaluate text :: s.2) (engine.evaluate text s.1)
  calculate text places s :=
    beside (.calculate text places :: s.2) (engine.calculate text places s.1)
  draw text axis origin bound s :=
    beside (.draw text axis origin bound :: s.2) (engine.draw text axis origin bound s.1)
  display text s := beside s.2 (engine.display text s.1)
  requestStop s := (engine.requestStop s.1, s.2)
  clearStop s := (engine.clearStop s.1, s.2)
  isStopping s := engine.isStopping s.1
  reset s := (engine.reset s.1, s.2)

variable {engine : Engine σ}

/-- A recording engine keeps a log. -/
theorem recording_logs (engine : Engine σ) : engine.recording.Logs Prod.snd :=
  ⟨rfl, fun _ => rfl, fun _ => rfl, fun _ => rfl, fun _ _ => rfl, fun _ _ => rfl, fun _ _ _ => rfl,
    fun _ _ _ _ _ => rfl, fun _ _ => rfl⟩

/-- The log does not show in the answers. -/
theorem answer_recording (engine : Engine σ) (key : Key) :
    key.answer engine.recording = key.answer engine := by
  cases key <;> rfl

/-- The log does not show in the answers. -/
theorem AsNew.recording {s : σ} (h : engine.AsNew s) (log : List Key) :
    engine.recording.AsNew (s, log) :=
  ⟨h.validate, h.evaluate, h.calculate, h.draw, h.display⟩

/-- An engine answers as a new one if it does so with a log. -/
theorem AsNew.of_recording {s : σ × List Key} (h : engine.recording.AsNew s) : engine.AsNew s.1 :=
  ⟨h.validate, h.evaluate, h.calculate, h.draw, h.display⟩

/-- A steadfast engine can be recorded. -/
theorem Steadfast.recording (h : engine.Steadfast) : engine.recording.Steadfast where
  clearStop_fresh := h.clearStop_fresh.recording []
  clearStop_reset s := (h.clearStop_reset s.1).recording s.2
  clearStop_requestStop s hs := (h.clearStop_requestStop s.1 hs.of_recording).recording s.2
  unstopped key := by
    rw [answer_recording]
    exact h.unstopped key

/-- An engine that is as good as new is steadfast. -/
theorem Renewable.steadfast (h : engine.Renewable)
    (hstopped : ∀ key, (Key.answer engine key).stopped = false) : engine.Steadfast := by
  have hnew : engine.AsNew engine.fresh :=
    ⟨fun _ => rfl, fun _ => rfl, fun _ _ => rfl, fun _ _ _ _ => rfl, fun _ => rfl⟩
  refine ⟨?_, fun s => ?_, fun s hs => ?_, hstopped⟩
  · rwa [h.clearStop_fresh]
  · rwa [h.clearStop_reset]
  · rwa [h.clearStop_requestStop]

/-- The built-in engine is steadfast. -/
theorem builtin_steadfast : Engine.builtin.Steadfast := by
  have hcall (text : String) {r : Bool → Run String} (h : (r false).Unstopped) :
      (Service.Call.ofOutcome text (Builtin.State.finish ⟨false, []⟩ r).1).stopped = false := by
    have hne := Builtin.State.finish_ne_stopped h []
    generalize (Builtin.State.finish ⟨false, []⟩ r).1 = outcome at hne ⊢
    cases outcome with
    | ok result => rfl
    | error e => exact beq_false_of_ne fun he => hne (congrArg _ he)
  refine builtin_renewable.steadfast fun key => ?_
  cases key with
  | evaluate text => exact hcall text (Builtin.unstopped_evaluate text)
  | calculate text places => exact hcall text (Builtin.unstopped_calculate text places)
  | draw text axis origin bound =>
    exact hcall text (Builtin.unstopped_draw text axis origin bound)

end Engine

namespace Service

variable {engine : Engine σ}

/-! ## The pool -/

namespace Pool

/-- The computations of all idle engines. -/
def calls (log : σ → List Key) (p : Pool σ) : List Key := p.idle.flatMap log

/-- No call runs, and every idle engine answers as a new one does. -/
structure AsNew (engine : Engine σ) (p : Pool σ) : Prop where
  /-- The gate has all its tokens. -/
  gate : p.gate.Ready
  /-- At most a request to stop is left over. -/
  idle : ∀ s ∈ p.idle, engine.AsNew (engine.clearStop s)

/-- No call runs behind the given computations. -/
structure Behind (engine : Engine σ) (keys : List Key) (p q : Pool σ) : Prop where
  /-- The engines answer as new ones do. -/
  asNew : q.AsNew engine
  /-- Whoever keeps a log has made these computations, and no others. -/
  calls_eq : ∀ log, engine.Logs log → q.calls log = keys ++ p.calls log

variable {p : Pool σ}

/-- A pool without engines behind a new gate. -/
theorem asNew_ofGate {capacity : Nat} {gate : Gate} (h : Gate.make capacity = .ok gate) :
    (Pool.ofGate gate).AsNew engine :=
  ⟨Gate.ready_of_make h, fun _ hs => by cases hs⟩

namespace AsNew

/-- A call to a pool is a call to an engine that answers as a new one does. -/
theorem exists_run (h : p.AsNew engine) (hengine : engine.Steadfast) {α : Type} (keys : List Key)
    (operation : String) (call : σ → Except EngineError α × σ)
    (hcall : ∀ log, engine.Logs log → ∀ s, log (call s).2 = keys ++ log s) :
    ∃ s q, engine.AsNew s ∧ p.run engine operation call = (.ok (call s).1, q) ∧
      Behind engine keys p q := by
  obtain ⟨q, hrun, hgate, hidle⟩ :=
    Pool.exists_run engine h.gate.positive h.gate.free operation call
  refine ⟨_, q, ?_, hrun, ⟨hgate ▸ h.gate, ?_⟩, fun log hlog => ?_⟩
  · unfold checkout
    split
    · rename_i s rest hp
      exact h.idle s (hp ▸ .head _)
    · exact hengine.clearStop_fresh
  · rw [hidle, List.forall_mem_cons]
    refine ⟨hengine.clearStop_reset _, fun s hs => h.idle s ?_⟩
    unfold checkout at hs
    split at hs
    · rename_i t rest hp
      exact hp ▸ .tail _ hs
    · exact hs
  · rw [calls, hidle, List.flatMap_cons, hlog.reset, hcall log hlog, List.append_assoc, calls]
    congr 1
    unfold checkout
    split
    · rename_i t rest hp
      rw [hp, List.flatMap_cons, hlog.clearStop]
    · rename_i hp
      rw [hp, hlog.clearStop, hlog.fresh]
      rfl

/-- Reading a text is no computation. -/
theorem validate (h : p.AsNew engine) (hengine : engine.Steadfast) (text : String) :
    ∃ q, p.validate engine text = (verdict engine text, q) ∧ Behind engine [] p q := by
  obtain ⟨s, q, hs, hrun, hq⟩ := h.exists_run hengine [] "validate_syntax"
    (engine.validate text) fun log hlog => hlog.validate text
  refine ⟨q, ?_, hq⟩
  rw [Pool.validate, hrun, verdict, hs.validate]
  cases (engine.validate text engine.fresh).1 with
  | ok canonical => rfl
  | error e => cases e <;> rfl

/-- Displaying a result is no computation. -/
theorem display (h : p.AsNew engine) (hengine : engine.Steadfast) (r : Evaluation) :
    ∃ q, p.display engine r = (.ok (displayed engine r), q) ∧ Behind engine [] p q := by
  obtain ⟨s, q, hs, hrun, hq⟩ := h.exists_run hengine [] "format_for_display"
    (engine.display r.text) fun log hlog => hlog.display r.text
  refine ⟨q, ?_, hq⟩
  rw [Pool.display, hrun, displayed, hs.display]
  cases (engine.display r.text engine.fresh).1 with
  | ok text => rfl
  | error e => rfl

end AsNew

end Pool

/-- The computation that a key stands for. -/
def Key.compute (engine : Engine σ) : Key → Pool σ → Except Failure Call × Pool σ
  | .evaluate text => Pool.evaluate engine text
  | .calculate text places => Pool.calculate engine text places
  | .draw text axis origin bound => Pool.draw engine text axis origin bound

/-- A computation gives what a new engine gives. -/
theorem Pool.AsNew.compute {p : Pool σ} (h : p.AsNew engine) (hengine : engine.Steadfast)
    (key : Key) :
    ∃ q, key.compute engine p = (.ok (key.answer engine), q) ∧ Behind engine [key] p q := by
  cases key with
  | evaluate text =>
    obtain ⟨s, q, hs, hrun, hq⟩ := h.exists_run hengine [.evaluate text] "evaluate"
      (engine.evaluate text) fun log hlog => hlog.evaluate text
    refine ⟨q, ?_, hq⟩
    rw [Key.compute, Pool.evaluate, Pool.compute, hrun, hs.evaluate]
    rfl
  | calculate text places =>
    obtain ⟨s, q, hs, hrun, hq⟩ := h.exists_run hengine [.calculate text places]
      "calculate" (engine.calculate text places) fun log hlog => hlog.calculate text places
    refine ⟨q, ?_, hq⟩
    rw [Key.compute, Pool.calculate, Pool.compute, hrun, hs.calculate]
    rfl
  | draw text axis origin bound =>
    obtain ⟨s, q, hs, hrun, hq⟩ := h.exists_run hengine [.draw text axis origin bound]
      "draw" (engine.draw text axis origin bound) fun log hlog => hlog.draw text axis origin bound
    refine ⟨q, ?_, hq⟩
    rw [Key.compute, Pool.draw, Pool.compute, hrun, hs.draw]
    rfl

/-- A request to stop is no computation either. -/
theorem Pool.AsNew.requestStop {p : Pool σ} (h : p.AsNew engine) (hengine : engine.Steadfast) :
    Behind engine [] p (p.requestStop engine) := by
  refine ⟨⟨⟨h.gate.positive, h.gate.free⟩, fun s hs => ?_⟩, fun log hlog => ?_⟩
  · obtain ⟨t, ht, rfl⟩ := List.mem_map.mp hs
    exact hengine.clearStop_requestStop t (h.idle t ht)
  · rw [calls, Pool.requestStop, List.flatMap_map]
    simp only [hlog.requestStop]
    rfl

end Service

end Reckoner
