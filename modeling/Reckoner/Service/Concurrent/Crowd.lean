import Reckoner.Service.Gate

/-!
# Many callers at one gate

Callers move in any order, and each move is made at once. A caller reads how often there
were interruptions, tries to take a token, and waits if none is free. A wait ends with a
token or because time runs out; after either the caller reads the number of interruptions
once more, and if it has changed, gives up and gives back what it was given.
-/

namespace Reckoner.Service.Concurrent

/-- Where a caller stands. What it has `seen` is the number of interruptions when it came. -/
inductive Stand where
  /-- It asks for nothing. -/
  | away
  /-- It has come. -/
  | arrived (seen : UInt64)
  /-- It found no token. -/
  | waiting (seen : UInt64)
  /-- Its time ran out while it waited. -/
  | roused (seen : UInt64)
  /-- It was given a token while it waited. -/
  | served (seen : UInt64)
  /-- It gives up, but has a token. -/
  | leaving
  /-- It has passed with its token. -/
  | holding
  /-- It gave up. -/
  | refused
  deriving DecidableEq, Repr

/-- The caller has a token. -/
def Stand.hasToken : Stand → Bool
  | served _ | leaving | holding => true
  | away | arrived _ | waiting _ | roused _ | refused => false

/-- A gate and the callers at it. -/
structure Crowd where
  /-- The gate. -/
  gate : Gate
  /-- Where the callers stand. -/
  callers : List Stand
  deriving DecidableEq, Repr

/-- What happens at a gate. Callers are told apart by their places in the crowd. -/
inductive Move where
  /-- A caller comes and reads the number of interruptions. -/
  | arrive (caller : Nat)
  /-- A caller takes a free token, or begins to wait. -/
  | reach (caller : Nat)
  /-- A waiting caller is given a free token. -/
  | receive (caller : Nat)
  /-- The time of a waiting caller runs out. -/
  | timeOut (caller : Nat)
  /-- A caller reads the number of interruptions once more. -/
  | look (caller : Nat)
  /-- A caller gives its token back. -/
  | giveBack (caller : Nat)
  /-- All who wait are interrupted. -/
  | interrupt
  deriving DecidableEq, Repr

namespace Crowd

/-- Nobody is at a new gate. -/
def ofGate (gate : Gate) : Crowd := ⟨gate, []⟩

/-- A caller stands somewhere else. -/
def place (c : Crowd) (caller : Nat) (stand : Stand) : Crowd :=
  { c with callers := c.callers.set caller stand }

/-- One more caller, who asks for nothing yet. -/
def join (c : Crowd) : Crowd := { c with callers := c.callers ++ [.away] }

/-- The number of callers with a token. -/
def tokens (c : Crowd) : Nat := c.callers.countP Stand.hasToken

/-- What a move leads to, where it is possible. -/
def step (c : Crowd) : Move → Option Crowd
  | .arrive i =>
    match c.callers[i]? with
    | some .away | some .refused => some (c.place i (.arrived c.gate.interruptions))
    | _ => none
  | .reach i =>
    match c.callers[i]? with
    | some (.arrived seen) =>
      match c.gate.take? with
      | some gate => some ({ c with gate }.place i .holding)
      | none => some (c.place i (.waiting seen))
    | _ => none
  | .receive i =>
    match c.callers[i]? with
    | some (.waiting seen) => c.gate.take?.map fun gate => { c with gate }.place i (.served seen)
    | _ => none
  | .timeOut i =>
    match c.callers[i]? with
    | some (.waiting seen) => some (c.place i (.roused seen))
    | _ => none
  | .look i =>
    match c.callers[i]? with
    | some (.roused seen) =>
      some (c.place i (if c.gate.interruptions = seen then .waiting seen else .refused))
    | some (.served seen) =>
      some (c.place i (if c.gate.interruptions = seen then .holding else .leaving))
    | _ => none
  | .giveBack i =>
    match c.callers[i]? with
    | some .holding => some ({ c with gate := c.gate.release }.place i .away)
    | some .leaving => some ({ c with gate := c.gate.release }.place i .refused)
    | _ => none
  | .interrupt => some { c with gate := c.gate.interrupt }

/-- What moves lead to, one after another, where all of them are possible. -/
def run (c : Crowd) (moves : List Move) : Option Crowd := moves.foldlM step c

/-- Whether a caller passed in order to run an operation, once that is decided. -/
def outcome? (c : Crowd) (caller : Nat) (operation : String) : Option (Except Failure Unit) :=
  match c.callers[caller]? with
  | some .holding => some (.ok ())
  | some .refused => some (.error (.interrupted operation))
  | _ => none

end Crowd

end Reckoner.Service.Concurrent
