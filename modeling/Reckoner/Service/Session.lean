import Reckoner.Service.Batch

/-!
# Sessions

A service is asked for one thing after another: for the records of a batch, the shape or the
validation of a single expression, to stop what runs, or to forget what is stored.
-/

namespace Reckoner.Service

/-- What a service can be asked for. -/
inductive Request where
  /-- The records of a batch. -/
  | evaluate (expressions : List String) (p : Parameters)
  /-- The shape of an expression. -/
  | classify (expression : String)
  /-- The normalized text of an expression. -/
  | validate (expression : String)
  /-- To stop what runs. -/
  | cancel
  /-- To forget the stored results. -/
  | forget
  deriving DecidableEq, Repr

/-- What comes back. -/
inductive Answer where
  /-- The records of a batch, or why there are none. -/
  | records (outcome : Except Failure (List Record))
  /-- The shape of an expression, or why it has none. -/
  | shape (outcome : Except Failure Shape)
  /-- The normalized text of an expression, or why it is refused. -/
  | text (outcome : Except Failure String)
  /-- Nothing. -/
  | done

variable {σ : Type}

/-- Answer a request. -/
def serve (engine : Engine σ) (s : Service σ) : Request → Answer × Service σ
  | .evaluate expressions p =>
    let (outcome, s) := (evaluateBatch engine p expressions).run s
    (.records outcome, s)
  | .classify expression =>
    let (outcome, s) := (classifyAlone engine expression).run s
    (.shape outcome, s)
  | .validate expression =>
    let (outcome, s) := (validate engine expression).run s
    (.text outcome, s)
  | .cancel => (.done, s.cancel engine)
  | .forget => (.done, s.forget)

/-- Answer requests one after another. -/
def session (engine : Engine σ) (s : Service σ) : List Request → List Answer × Service σ
  | [] => ([], s)
  | request :: rest =>
    let (answer, s) := s.serve engine request
    let (answers, s) := s.session engine rest
    (answer :: answers, s)

/-- The outcome of a batch behind a history of requests. -/
def batchAfter (engine : Engine σ) (s : Service σ) (history : List Request) (p : Parameters)
    (expressions : List String) : Except Failure (List Record) :=
  ((evaluateBatch engine p expressions).run (s.session engine history).2).1

end Reckoner.Service
