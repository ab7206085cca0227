/-!
# Failures of the service

An expression can be refused, a caller can give up waiting, a configuration can be
unusable, and an input can be too large. A refused expression does not keep the rest of
its batch from being evaluated.
-/

namespace Reckoner

/-- Why the service does not do what it was asked for. -/
inductive Failure where
  /-- A word is neither called, nor a constant, nor a single letter. -/
  | unrecognized (word : String)
  /-- A function may not be called. -/
  | forbidden (name : String)
  /-- The engine's parser refused the expression. -/
  | malformed (detail : String)
  /-- The caller gave up while it waited to run an operation. -/
  | interrupted (operation : String)
  /-- A setting is unusable, or the configuration as a whole. -/
  | misconfigured (message : String) (setting : Option String)
  /-- An input is larger than a limit. -/
  | exceeded (what : String) (limit actual : Nat)
  deriving DecidableEq, Repr

namespace Failure

/-- The category of a failure. -/
def category : Failure → String
  | unrecognized _ => "grammatical"
  | forbidden _ => "semantic"
  | malformed _ => "syntax"
  | interrupted _ => "concurrency"
  | misconfigured .. => "configuration"
  | exceeded .. => "limit"

/-- The rest of the batch can go on. -/
def isRecoverable : Failure → Bool
  | interrupted _ | misconfigured .. => false
  | _ => true

/-- The wording of a failure. -/
def message : Failure → String
  | unrecognized word => "Grammatical error: unrecognized symbol '" ++ word ++ "'"
  | forbidden name => "Semantic error: function '" ++ name ++ "' is not allowed"
  | malformed detail => "Syntax error: " ++ detail
  | interrupted operation => "Interrupted while waiting to run '" ++ operation ++ "'"
  | misconfigured message _ => "Configuration error: " ++ message
  | exceeded what limit actual =>
    "Limit exceeded: " ++ what ++ " (limit " ++ toString limit ++ ", got " ++ toString actual ++ ")"

/-- A setting is unusable. -/
def badSetting (setting message : String) : Failure := misconfigured message (some setting)

end Failure

end Reckoner
