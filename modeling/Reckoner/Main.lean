import Reckoner.CommandLine.Run

/-!
# The program

The outermost layer: it takes the arguments, the environment, the file of the settings and
the input from the system, and prints the answer.
-/

namespace Reckoner.CommandLine

/-- The system's wording for why something could not be done. -/
def reason (details : String) (code : UInt32) : String :=
  details ++ " (os error " ++ toString code ++ ")"

/-- What is found at a path if it could not be read. -/
def Found.ofError : IO.Error → Found
  | .noFileOrDirectory _ code details => .nothing (reason details code)
  | .inappropriateType _ code details =>
    if code = 20 then .nothing (reason details code) else .unreadable (reason details code)
  | .permissionDenied _ code details => .unreadable (reason details code)
  | e => .nothing (toString e)

/-- What is found at a path. -/
def look (path : String) : IO Found := do
  try
    match String.fromUTF8? (← IO.FS.readBinFile path) with
    | some content => return .text content
    | none => return .unreadable "stream did not contain valid UTF-8"
  catch e => return Found.ofError e

/-- Where an invocation runs. -/
def surroundings (i : Invocation) : IO Surroundings := do
  let values ← Settings.environmentNames.filterMapM fun name => do
    return (← IO.getEnv name).map fun value => (name, value)
  let found ← look (settingsPath i (values.lookup ·))
  return ⟨(values.lookup ·), fun _ => found⟩

/-- Run an invocation and print its answer. -/
def perform (i : Invocation) : IO UInt32 := do
  let around ← surroundings i
  let input ← if i.expressions.isEmpty then (← IO.getStdin).readBinToEnd else pure .empty
  match run i around input with
  | .ok answer =>
    IO.print answer
    return 0
  | .error trouble =>
    IO.eprintln ("Error: " ++ trouble.message)
    return 1

end Reckoner.CommandLine

/-- The program. -/
def main (arguments : List String) : IO UInt32 := do
  match Reckoner.CommandLine.Invocation.ofArguments arguments with
  | .ok i => Reckoner.CommandLine.perform i
  | .error e =>
    if e.isQuestion then
      IO.println e.message
      return 0
    else
      IO.eprintln e.message
      return 2
