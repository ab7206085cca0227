import Reckoner.Service.Store

/-!
# The service

The service answers calls from its store, and from the pool of engines where the store
has no answer. It counts both. A task is a sequence of such calls that ends early when
the caller is interrupted; what it did until then stays done.
-/

namespace Reckoner

/-- The engines, the stored results, and the counts. -/
structure Service (σ : Type) where
  /-- The settings it was made from. -/
  settings : Settings
  /-- The engines. -/
  pool : Service.Pool σ
  /-- The stored results. -/
  store : Service.Store
  /-- The number of answers from the store. -/
  hits : Nat
  /-- The number of answers that were computed. -/
  misses : Nat

namespace Service

/-- A sequence of calls to a service. -/
abbrev Task (σ α : Type) := ExceptT Failure (StateM (Service σ)) α

variable {σ : Type}

/-- A service without engines and results so far. -/
def make (settings : Settings) : Except Failure (Service σ) := do
  settings.check
  let gate ← Gate.make settings.gate.maxInFlight
  return ⟨settings, Pool.ofGate gate, Store.empty settings.store, 0, 0⟩

/-- The same service, if stored results lapse as told. -/
def lapsing (s : Service σ) (lapsed : Nat → Key → Bool) : Service σ :=
  { s with store := s.store.lapsing lapsed }

/-- Run a call to the pool. -/
def inPool {α : Type} (call : Pool σ → Except Failure α × Pool σ) : Task σ α := do
  let s ← getThe (Service σ)
  let (outcome, pool) := call s.pool
  set { s with pool }
  match outcome with
  | .ok a => return a
  | .error e => throw e

/-- A call to the pool gives what the pool gives. -/
theorem run_inPool {α : Type} (call : Pool σ → Except Failure α × Pool σ) (s : Service σ) :
    (inPool call).run.run s = ((call s.pool).1, { s with pool := (call s.pool).2 }) := by
  change ((match (call s.pool).1 with
    | .ok a => (pure a : Task σ α)
    | .error e => throw e).run.run { s with pool := (call s.pool).2 }) = _
  cases (call s.pool).1 <;> rfl

/-- Count an answer. -/
def count (s : Service σ) (hit : Bool) : Service σ :=
  if hit then { s with hits := s.hits + 1 } else { s with misses := s.misses + 1 }

/-- Answer from the store, or compute the answer and store it. Only calls that are
answered are counted. -/
def lookup (key : Key) (compute : Task σ Call) : Task σ Evaluation := do
  let (found, store) ← (← getThe (Service σ)).store.getOrCompute key compute
  modifyThe (Service σ) fun s => count { s with store } found.hit
  return found.result

/-- The canonical text of an expression. -/
def validateSyntax (engine : Engine σ) (text : String) : Task σ String :=
  inPool (Pool.validate engine text)

/-- The symbolic value. -/
def evaluate (engine : Engine σ) (text : String) : Task σ Evaluation :=
  lookup (.evaluate text) (inPool (Pool.evaluate engine text))

/-- The approximate value. -/
def calculate (engine : Engine σ) (text : String) (places : Nat) : Task σ Evaluation :=
  lookup (.calculate text places) (inPool (Pool.calculate engine text places))

/-- Points of the graph. -/
def draw (engine : Engine σ) (text axis origin bound : String) : Task σ Evaluation :=
  lookup (.draw text axis origin bound) (inPool (Pool.draw engine text axis origin bound))

/-- The display form of a result, which is not stored. -/
def display (engine : Engine σ) (r : Evaluation) : Task σ Evaluation :=
  inPool (Pool.display engine r)

/-- Interrupt who waits, and ask all engines to stop. -/
def cancel (engine : Engine σ) (s : Service σ) : Service σ :=
  { s with pool := s.pool.requestStop engine }

/-- Forget the stored results. -/
def forget (s : Service σ) : Service σ := { s with store := s.store.clear }

/-- The percentage of answers that came from the store; zero without any answer. -/
def hitRate (s : Service σ) : Float :=
  let total := s.hits + s.misses
  if total = 0 then 0.0 else Float.ofNat s.hits / Float.ofNat total * 100.0

end Service

end Reckoner
