import Reckoner.Record.Basic
import Reckoner.Service.Gate

/-!
# The pool of engines

An engine serves one call at a time. A call takes a token from the gate and an idle
engine from the pool, or a new one if none is idle; at its end the engine is reset and
both go back. What an engine refuses becomes a problem of the result. Only a caller
that is interrupted at the gate gets no result.
-/

namespace Reckoner.Service

/-- The engines and the gate in front of them. -/
structure Pool (σ : Type) where
  /-- The gate in front of the engines. -/
  gate : Gate
  /-- The engines that wait for a call, the last one used first. -/
  idle : List σ
  /-- The number of engines made so far. -/
  engines : Nat
  /-- The number of calls that reached an engine. -/
  invocations : Nat

/-- The outcome of a call that reached an engine. -/
structure Call where
  /-- The result, or the problem in its place. -/
  result : Evaluation
  /-- The engine was asked to stop, so that the result says nothing about the expression. -/
  stopped : Bool
  deriving DecidableEq, Repr

/-- The outcome of an engine call on a text. -/
def Call.ofOutcome (text : String) : Except EngineError Evaluation → Call
  | .ok result => ⟨result, false⟩
  | .error e => ⟨.failed text e.message, e == .stopped⟩

namespace Pool

variable {σ : Type}

/-- No engine was made yet. -/
def ofGate (gate : Gate) : Pool σ := ⟨gate, [], 0, 0⟩

/-- Take out an engine that nobody has asked to stop. -/
def checkout (engine : Engine σ) (p : Pool σ) : σ × Pool σ :=
  match p.idle with
  | s :: rest => (engine.clearStop s, { p with idle := rest })
  | [] => (engine.clearStop engine.fresh, { p with engines := p.engines + 1 })

/-- Put an engine back. -/
def checkin (engine : Engine σ) (s : σ) (p : Pool σ) : Pool σ :=
  { p with idle := engine.reset s :: p.idle }

/-- Run a call on an engine. -/
def run {α : Type} (engine : Engine σ) (operation : String)
    (call : σ → Except EngineError α × σ) (p : Pool σ) :
    Except Failure (Except EngineError α) × Pool σ :=
  match p.gate.acquire operation with
  | .error e => (.error e, p)
  | .ok gate =>
    let (s, q) := checkout engine { p with gate }
    let (outcome, s) := call s
    let q := checkin engine s { q with invocations := q.invocations + 1 }
    (.ok outcome, { q with gate := q.gate.release })

/-- Let the engine read an expression; gives its canonical text. -/
def validate (engine : Engine σ) (text : String) (p : Pool σ) : Except Failure String × Pool σ :=
  match p.run engine "validate_syntax" (engine.validate text) with
  | (.error e, p) => (.error e, p)
  | (.ok (.ok canonical), p) => (.ok canonical, p)
  | (.ok (.error (.parse detail)), p) => (.error (.malformed detail), p)
  | (.ok (.error e), p) => (.error (.malformed e.message), p)

/-- Run a call whose problems become those of the result. -/
def compute (engine : Engine σ) (operation text : String)
    (call : σ → Except EngineError Evaluation × σ) (p : Pool σ) : Except Failure Call × Pool σ :=
  let (outcome, p) := p.run engine operation call
  (outcome.map (Call.ofOutcome text), p)

/-- The symbolic value. -/
def evaluate (engine : Engine σ) (text : String) : Pool σ → Except Failure Call × Pool σ :=
  compute engine "evaluate" text (engine.evaluate text)

/-- The approximate value. -/
def calculate (engine : Engine σ) (text : String) (places : Nat) :
    Pool σ → Except Failure Call × Pool σ :=
  compute engine "calculate" text (engine.calculate text places)

/-- Points of the graph. -/
def draw (engine : Engine σ) (text axis origin bound : String) :
    Pool σ → Except Failure Call × Pool σ :=
  compute engine "draw" text (engine.draw text axis origin bound)

/-- The display form of a result. What cannot be displayed keeps its text and gets one
more problem. -/
def display (engine : Engine σ) (r : Evaluation) (p : Pool σ) :
    Except Failure Evaluation × Pool σ :=
  match p.run engine "format_for_display" (engine.display r.text) with
  | (.error e, p) => (.error e, p)
  | (.ok (.ok text), p) => (.ok (r.withText text), p)
  | (.ok (.error e), p) => (.ok ⟨r.text, r.problems ++ [e.message]⟩, p)

/-- Interrupt who waits at the gate, and ask all engines to stop. -/
def requestStop (engine : Engine σ) (p : Pool σ) : Pool σ :=
  { p with gate := p.gate.interrupt, idle := p.idle.map engine.requestStop }

end Pool

end Reckoner.Service
