import Reckoner.Engine.Basic
import Reckoner.Service.Gate

/-!
# Many calls at one pool

Calls move in any order, and each move is made at once. A call is let in, takes an idle
engine or makes one, takes back an earlier request to stop, runs, and puts the engine back
before it leaves. Whoever asks for a stop asks every engine there is.
-/

namespace Reckoner.Service.Concurrent

/-- How far a call has got. Engines are told apart by the order in which they were made. -/
inductive Stage where
  /-- It is not let in. -/
  | outside
  /-- It has a token. -/
  | admitted
  /-- It found no idle engine. -/
  | emptyHanded
  /-- It has an engine. -/
  | handed (engine : Nat)
  /-- It has taken back earlier requests to stop. -/
  | ready (engine : Nat)
  /-- The engine runs. -/
  | running (engine : Nat)
  /-- The run has ended. -/
  | finished (engine : Nat)
  /-- The engine is put back. -/
  | relieved
  deriving DecidableEq, Repr

namespace Stage

/-- The engine that a call has. -/
def engine? : Stage → Option Nat
  | handed n | ready n | running n | finished n => some n
  | outside | admitted | emptyHanded | relieved => none

/-- The call has a token. -/
def hasToken : Stage → Bool
  | outside => false
  | _ => true

end Stage

/-- A gate, the engines behind it, and the calls. -/
structure Workshop (σ : Type) where
  /-- The gate. -/
  gate : Gate
  /-- All engines made so far. -/
  engines : List σ
  /-- The engines that wait for a call, the last one used first. -/
  idle : List Nat
  /-- How far the calls have got. -/
  calls : List Stage

/-- What happens at a pool. Calls are told apart by their places. -/
inductive Turn (σ : Type) where
  /-- A call takes a token. -/
  | enter (call : Nat)
  /-- A call takes an idle engine, if there is one. -/
  | pick (call : Nat)
  /-- A call makes an engine, which can be asked to stop from then on. -/
  | build (call : Nat)
  /-- A call takes back earlier requests to stop. -/
  | clear (call : Nat)
  /-- The run of a call begins. -/
  | start (call : Nat)
  /-- The run of a call ends, with what it does to the engine. -/
  | finish (call : Nat) (effect : σ → σ)
  /-- A call puts its engine back. -/
  | putBack (call : Nat)
  /-- A call gives its token back. -/
  | leave (call : Nat)
  /-- All engines are asked to stop. -/
  | requestStop

namespace Workshop

variable {σ : Type}

/-- No engine was made yet, and nobody calls. -/
def ofGate (gate : Gate) : Workshop σ := ⟨gate, [], [], []⟩

/-- A call has got somewhere else. -/
def place (w : Workshop σ) (call : Nat) (stage : Stage) : Workshop σ :=
  { w with calls := w.calls.set call stage }

/-- One more call. -/
def join (w : Workshop σ) : Workshop σ := { w with calls := w.calls ++ [.outside] }

/-- What a turn leads to, where it is possible. -/
def step (engine : Engine σ) (w : Workshop σ) : Turn σ → Option (Workshop σ)
  | .enter i =>
    match w.calls[i]? with
    | some .outside => w.gate.take?.map fun gate => { w with gate }.place i .admitted
    | _ => none
  | .pick i =>
    match w.calls[i]? with
    | some .admitted =>
      match w.idle with
      | n :: idle => some ({ w with idle }.place i (.handed n))
      | [] => some (w.place i .emptyHanded)
    | _ => none
  | .build i =>
    match w.calls[i]? with
    | some .emptyHanded =>
      let made := { w with engines := w.engines ++ [engine.fresh] }
      some (made.place i (.handed w.engines.length))
    | _ => none
  | .clear i =>
    match w.calls[i]? with
    | some (.handed n) =>
      some ({ w with engines := w.engines.modify n engine.clearStop }.place i (.ready n))
    | _ => none
  | .start i =>
    match w.calls[i]? with
    | some (.ready n) => some (w.place i (.running n))
    | _ => none
  | .finish i effect =>
    match w.calls[i]? with
    | some (.running n) =>
      some ({ w with engines := w.engines.modify n effect }.place i (.finished n))
    | _ => none
  | .putBack i =>
    match w.calls[i]? with
    | some (.finished n) =>
      let rested := { w with engines := w.engines.modify n engine.reset, idle := n :: w.idle }
      some (rested.place i .relieved)
    | _ => none
  | .leave i =>
    match w.calls[i]? with
    | some .relieved => some ({ w with gate := w.gate.release }.place i .outside)
    | _ => none
  | .requestStop =>
    some { w with gate := w.gate.interrupt, engines := w.engines.map engine.requestStop }

/-- What turns lead to, one after another, where all of them are possible. -/
def run (engine : Engine σ) (w : Workshop σ) (turns : List (Turn σ)) : Option (Workshop σ) :=
  turns.foldlM (step engine) w

end Workshop

end Reckoner.Service.Concurrent
