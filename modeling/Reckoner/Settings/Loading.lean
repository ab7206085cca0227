import Reckoner.Settings.Reading
import Reckoner.Settings.Surroundings
import Reckoner.Text.Blank

/-!
# Loading settings

The file is one that was asked for, or the usual one if it is there. Environment variables
take precedence over what it says, as far as they hold numbers.
-/

namespace Reckoner

namespace Settings

open Text

/-- A number of 64 bits in a variable: digits, perhaps with a plus sign in front and blanks
around. -/
def numberIn? (s : String) : Option Nat :=
  let trimmed := trimBlanks s.toList
  let digits := if trimmed.head? = some '+' then trimmed.tail else trimmed
  let n := Nat.ofDigitChars 10 digits 0
  if !digits.isEmpty && digits.all Char.isDigit && n < 0x10000000000000000 then some n else none

/-- Let environment variables take precedence. -/
def overriddenBy (environment : String → Option String) (s : Settings) : Settings :=
  let number (name : String) (otherwise : Nat) : Nat :=
    ((environment name).bind numberIn?).getD otherwise
  { s with
    gate := { s.gate with maxInFlight := number "SIGMA_MAX_IN_FLIGHT" s.gate.maxInFlight }
    store := { s.store with
      capacity := number "SIGMA_CACHE_CAPACITY" s.store.capacity
      lifetime := number "SIGMA_CACHE_TTL_SECONDS" s.store.lifetime }
    limits := {
      expressionLength := number "SIGMA_MAX_EXPRESSION_LENGTH" s.limits.expressionLength
      batchSize := number "SIGMA_MAX_BATCH_SIZE" s.limits.batchSize } }

/-- The variables that are looked at. -/
def environmentNames : List String :=
  ["SIGMA_CONFIG_PATH", "SIGMA_MAX_IN_FLIGHT", "SIGMA_CACHE_CAPACITY", "SIGMA_CACHE_TTL_SECONDS",
    "SIGMA_MAX_EXPRESSION_LENGTH", "SIGMA_MAX_BATCH_SIZE"]

/-- The settings in the file at a path. -/
def inFile (around : Surroundings) (path : String) : Except Failure Settings :=
  match around.find path with
  | .text content => ofText content
  | .unreadable reason | .nothing reason =>
    .error (.badSetting "path" ("cannot read '" ++ path ++ "': " ++ reason))

/-- The path of the usual file. -/
def usualPath (environment : String → Option String) : String :=
  (environment "SIGMA_CONFIG_PATH").getD "sigma.toml"

/-- The settings of the usual file, if there is one. -/
def inUsualFile (around : Surroundings) : Except Failure Settings :=
  let path := usualPath around.environment
  match around.find path with
  | .nothing _ => .ok {}
  | _ => inFile around path

/-- Settings with the environment's overrides, unless nothing could be evaluated with them. -/
def checked (around : Surroundings) (s : Settings) : Except Failure Settings := do
  let s := s.overriddenBy around.environment
  s.check
  return s

/-- The settings that are in force where no file is asked for. -/
def load (around : Surroundings) : Except Failure Settings := do
  checked around (← inUsualFile around)

end Settings

end Reckoner
