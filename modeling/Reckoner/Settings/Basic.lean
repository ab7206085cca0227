import Reckoner.Failure

/-!
# Settings of the service

How many engine calls may run at once, which results are kept, how precisely numbers
are told from functions, how large the input may be, and the parameters of an
evaluation where none are given.
-/

namespace Reckoner

/-- What a batch is evaluated with. -/
structure Parameters where
  /-- The number of places of approximate values. -/
  places : Nat := 10
  /-- The lower end of drawings. -/
  origin : String := "-10"
  /-- The upper end of drawings. -/
  bound : String := "10"
  deriving DecidableEq, Repr

/-- Where results are kept. -/
inductive Backend where
  /-- The latest result of a call is kept for some time. -/
  | expiring
  /-- The first result of a call is kept for ever. -/
  | unbounded
  /-- Nothing is kept. -/
  | disabled
  deriving DecidableEq, Repr

namespace Settings

/-- Settings of the gate in front of the engines. -/
structure Gate where
  /-- The number of engine calls that may run at once. -/
  maxInFlight : Nat := 20
  /-- The time between two looks of a waiting caller, in milliseconds. -/
  pollMillis : Nat := 25
  deriving DecidableEq, Repr

/-- A waiting caller pauses for at least a millisecond. -/
def Gate.pause (g : Gate) : Nat := max g.pollMillis 1

/-- Settings of the store of results. -/
structure Store where
  /-- Where results are kept. -/
  backend : Backend := .expiring
  /-- The number of results kept by the expiring backend. -/
  capacity : Nat := 10000
  /-- The time for which the expiring backend keeps a result, in seconds. -/
  lifetime : Nat := 3600
  deriving DecidableEq, Repr

/-- Settings of the classification. -/
structure Classification where
  /-- The number of places with which numbers are told from functions. -/
  places : Nat := 1
  deriving DecidableEq, Repr

/-- Limits of the input. -/
structure Limits where
  /-- The number of characters of an expression. -/
  expressionLength : Nat := 2000
  /-- The number of expressions of a batch. -/
  batchSize : Nat := 256
  deriving DecidableEq, Repr

end Settings

/-- All settings. -/
structure Settings where
  /-- The gate in front of the engines. -/
  gate : Settings.Gate := {}
  /-- The store of results. -/
  store : Settings.Store := {}
  /-- The classification. -/
  classification : Settings.Classification := {}
  /-- Limits of the input. -/
  limits : Settings.Limits := {}
  /-- The parameters where none are given. -/
  defaults : Parameters := {}
  deriving DecidableEq, Repr

/-- Refuse settings with which nothing could be evaluated. -/
def Settings.check (s : Settings) : Except Failure Unit :=
  if s.gate.maxInFlight = 0 then .error (.badSetting "gate.max_in_flight" "must be at least 1")
  else if s.limits.batchSize = 0 then
    .error (.badSetting "limits.max_batch_size" "must be at least 1")
  else if s.limits.expressionLength = 0 then
    .error (.badSetting "limits.max_expression_length" "must be at least 1")
  else if s.store.backend = .expiring ∧ s.store.capacity = 0 then
    .error (.badSetting "cache.max_capacity"
      "must be at least 1 for the moka backend; use backend = \"disabled\" instead")
  else .ok ()

end Reckoner
