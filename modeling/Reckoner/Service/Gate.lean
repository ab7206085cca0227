import Reckoner.Failure

/-!
# The gate in front of the engines

A gate has as many tokens as engine calls may run at once. A call takes a token and
gives it back at its end. Who finds no token waits, and an interruption ends the wait.
-/

namespace Reckoner.Service

/-- The tokens of a gate. -/
structure Gate where
  /-- The number of tokens. -/
  capacity : Nat
  /-- The tokens that nobody holds. -/
  free : Nat
  /-- How often waiting callers were interrupted; the count starts again after its last value. -/
  interruptions : UInt64
  deriving DecidableEq, Repr

namespace Gate

/-- A gate with all its tokens; there has to be one. -/
def make (capacity : Nat) : Except Failure Gate :=
  if capacity = 0 then .error (.badSetting "gate.max_in_flight" "must be at least 1")
  else .ok ⟨capacity, capacity, 0⟩

/-- The tokens that are held. -/
def inFlight (g : Gate) : Nat := g.capacity - g.free

/-- No token is free. -/
def isFull (g : Gate) : Bool := g.free == 0

/-- Take a free token. -/
def take? (g : Gate) : Option Gate :=
  if g.free = 0 then none else some { g with free := g.free - 1 }

/-- Take a token to run an operation. Nobody gives a token back in the meantime, so
without a free one the wait ends with an interruption. -/
def acquire (g : Gate) (operation : String) : Except Failure Gate :=
  match g.take? with
  | some g => .ok g
  | none => .error (.interrupted operation)

/-- Give a token back; more than the capacity are never kept. -/
def release (g : Gate) : Gate := { g with free := min (g.free + 1) g.capacity }

/-- Interrupt all who wait. -/
def interrupt (g : Gate) : Gate := { g with interruptions := g.interruptions + 1 }

/-- A token taken and given back leaves the gate as it was. -/
theorem release_of_take? {g h : Gate} (hg : g.free ≤ g.capacity) (ht : g.take? = some h) :
    h.release = g := by
  unfold take? at ht
  split at ht
  · cases ht
  · rename_i hf
    cases ht
    have he : min (g.free - 1 + 1) g.capacity = g.free := by omega
    simp only [release, he]

end Gate

end Reckoner.Service
