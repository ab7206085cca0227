import Reckoner.CommandLine.Invocation
import Reckoner.Record.Json
import Reckoner.Service.Batch
import Reckoner.Settings.Loading

/-!
# Running a command

A command loads the settings, takes expressions from its arguments or else from its input,
one a line, and answers with structured data.
-/

namespace Reckoner.CommandLine

/-- Why a command has no answer. -/
inductive Trouble where
  /-- The service failed, perhaps while something was done that is worth telling. -/
  | failure (cause : Failure) (context : Option String)
  /-- The input is no text. -/
  | unreadable
  deriving DecidableEq, Repr

/-- What was done when the trouble arose. -/
def Trouble.context : Trouble → Option String
  | failure _ context => context
  | unreadable => some "reading expressions from stdin"

/-- The outermost wording of the trouble. -/
def Trouble.message (t : Trouble) : String :=
  match t.context, t with
  | some context, _ => context
  | none, failure cause _ => cause.message
  | none, unreadable => ""

/-- A failure that needs no context. -/
def plainly {α : Type} : Except Failure α → Except Trouble α
  | .ok a => .ok a
  | .error e => .error (.failure e none)

/-- The path at which settings are looked for. -/
def settingsPath (i : Invocation) (environment : String → Option String) : String :=
  i.settings.getD (Settings.usualPath environment)

/-- The settings for a command. -/
def settingsFor (i : Invocation) (around : Surroundings) : Except Trouble Settings :=
  match i.settings with
  | none => plainly (Settings.load around)
  | some path =>
    match Settings.inFile around path with
    | .error e => .error (.failure e (some ("loading " ++ path)))
    | .ok settings => plainly (settings.checked around)

/-- Cut a text at its line ends. Behind the last line end there is another line only if it
is not empty. A carriage return in front of a line end belongs to it. -/
def lines (s : List Char) : List (List Char) :=
  match s with
  | [] => []
  | c :: rest =>
    if c = '\n' then [] :: lines rest
    else
      match lines rest with
      | [] => [[c]]
      | line :: others =>
        if c = '\r' ∧ line.isEmpty ∧ rest.head? = some '\n' then [] :: others
        else (c :: line) :: others

/-- The expressions of a command. -/
def expressionsOf (i : Invocation) (input : ByteArray) : Except Trouble (List String) :=
  if i.expressions.isEmpty then
    match String.fromUTF8? input with
    | some s => .ok ((lines s.toList).map String.ofList)
    | none => .error .unreadable
  else .ok i.expressions

/-- The line of an answer that tells a shape, or why there is none. -/
def classification (expression : String) (outcome : Except Failure Shape) : Json :=
  match outcome with
  | .ok shape => .record [("expression", .text expression), ("type", .text shape.title)]
  | .error e =>
    .record [("expression", .text expression), ("type", .null), ("error", .text e.message)]

/-- The line of an answer that tells a normalized text, or why there is none. -/
def validation (expression : String) (outcome : Except Failure String) : Json :=
  match outcome with
  | .ok normalized => .record [("expression", .text expression), ("valid", .boolean true),
      ("normalized", .text normalized)]
  | .error e => .record [("expression", .text expression), ("valid", .boolean false),
      ("error", .text e.message)]

variable {σ : Type}

/-- The answer to a command with one line for each expression. -/
def each {α : Type} (expressions : List String) (task : String → Service.Task σ α)
    (line : String → Except Failure α → Json) : StateM (Service σ) Json := do
  return .array (← expressions.mapM fun e => do return line e (← (task e).run))

/-- The answer to a command. -/
def answer (engine : Engine σ) (i : Invocation) (expressions : List String)
    (service : Service σ) : Except Failure Json :=
  match i.command with
  | .eval =>
    let p := i.parameters service.settings.defaults
    let outcome := ((Service.evaluateBatch engine p expressions).run service).1
    outcome.map fun records => .array (records.map Record.toJson)
  | .classify =>
    .ok ((each expressions (Service.classifyAlone engine) classification).run service).1
  | .validate => .ok ((each expressions (Service.validate engine) validation).run service).1

/-- Run a command: the text of its answer. -/
def run (i : Invocation) (around : Surroundings) (input : ByteArray) : Except Trouble String := do
  let settings ← settingsFor i around
  let service ← plainly (Service.make settings)
  let expressions ← expressionsOf i input
  let json ← plainly (answer Engine.builtin i expressions service)
  return (if i.pretty then json.pretty 0 else json.compact) ++ "\n"

end Reckoner.CommandLine
