import Reckoner.Service.Pool
import Reckoner.Settings.Basic

/-!
# The store of results

Results are kept under the call that they belong to, with all its arguments. What is
stored for a call and when depends on the backend. The expiring backend gives results up
when their time has run out or room is needed; which of them are gone is not decided
here, but given from outside. A result that is not there is computed, and stored unless
the computation failed or was stopped.
-/

namespace Reckoner.Service

/-- A call with all its arguments. -/
inductive Key where
  | evaluate (text : String)
  | calculate (text : String) (places : Nat)
  | draw (text axis origin bound : String)
  deriving DecidableEq, Repr

namespace Key

/-- The name of the operation. -/
def operation : Key → String
  | evaluate _ => "evaluate"
  | calculate .. => "calculate"
  | draw .. => "draw"

/-- The expression that the operation is applied to. -/
def text : Key → String
  | evaluate text => text
  | calculate text _ => text
  | draw text .. => text

end Key

/-- Results under their calls. -/
structure Store where
  /-- The backend and its limits. -/
  settings : Settings.Store
  /-- The results, each call at most once. -/
  entries : List (Key × Evaluation)
  /-- The number of lookups so far. -/
  lookups : Nat
  /-- What the expiring backend has given up by the lookup of a number. -/
  lapsed : Nat → Key → Bool

namespace Store

/-- An empty store that gives nothing up. -/
def empty (settings : Settings.Store) : Store := ⟨settings, [], 0, fun _ _ => false⟩

/-- The same store, if results lapse as told. -/
def lapsing (s : Store) (lapsed : Nat → Key → Bool) : Store := { s with lapsed }

/-- The result kept for a call, unless the expiring backend has given it up by now. -/
def get? (s : Store) (key : Key) : Option Evaluation :=
  if s.settings.backend = .expiring ∧ s.lapsed s.lookups key = true then none
  else s.entries.lookup key

/-- Keep a result under a call, instead of an earlier one. -/
def put (s : Store) (key : Key) (result : Evaluation) : Store :=
  { s with entries := (key, result) :: s.entries.filter fun entry => entry.1 != key }

/-- Store a result as the backend does. The expiring backend keeps the latest result, if
it keeps results at all, the unbounded one the first. -/
def insert (s : Store) (key : Key) (result : Evaluation) : Store :=
  match s.settings.backend with
  | .disabled => s
  | .unbounded => if (s.get? key).isSome then s else s.put key result
  | .expiring => if s.settings.lifetime = 0 then s else s.put key result

/-- The number of results kept, among them those that have lapsed. -/
def size (s : Store) : Nat := s.entries.length

/-- One more lookup has been made. -/
def next (s : Store) : Store := { s with lookups := s.lookups + 1 }

/-- Forget all results. -/
def clear (s : Store) : Store := { s with entries := [] }

/-- A result and whether it was kept. -/
structure Lookup where
  /-- The result. -/
  result : Evaluation
  /-- The result was kept, and nothing was computed. -/
  hit : Bool
  deriving DecidableEq, Repr

/-- Store the outcome of a computation. -/
def keep (s : Store) (key : Key) (call : Call) : Store :=
  if call.stopped then s else s.insert key call.result

/-- Answer from the store; compute and store what is not there. A computation that fails
leaves the store as it was. -/
def getOrCompute {m : Type → Type} [Monad m] (s : Store) (key : Key) (compute : m Call) :
    m (Lookup × Store) :=
  match s.get? key with
  | some result => return (⟨result, true⟩, s.next)
  | none => do
    let call ← compute
    return (⟨call.result, false⟩, s.next.keep key call)

section

variable {m : Type → Type} [Monad m] {s : Store} {key : Key} {compute : m Call}

/-- A result that is there is not computed again. -/
theorem getOrCompute_of_some {result : Evaluation} (h : s.get? key = some result) :
    s.getOrCompute key compute = pure (⟨result, true⟩, s.next) := by
  rw [getOrCompute, h]

/-- A result that is not there is computed and kept. -/
theorem getOrCompute_of_none (h : s.get? key = none) :
    s.getOrCompute key compute = (do
      let call ← compute
      return (⟨call.result, false⟩, s.next.keep key call)) := by
  rw [getOrCompute, h]

end

end Store

end Reckoner.Service
