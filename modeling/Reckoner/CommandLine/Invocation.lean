import Reckoner.CommandLine.Usage
import Reckoner.Settings.Basic

/-!
# Reading arguments

Arguments are read from left to right. An option takes effect when it is settled: at once if
it has no value or is written together with it, otherwise when the next option or expression
comes, or at the end. What stands behind a command is settled before what stands in front of
it, and counts more.
-/

namespace Reckoner.CommandLine

/-- What an argument looks like. -/
inductive Argument where
  /-- Two dashes: there are no options behind it. -/
  | mark
  /-- The name of an option, perhaps with a value. -/
  | long (name : String) (value : Option String)
  /-- Letters of options. -/
  | short (letters : List Char)
  /-- Anything else. -/
  | word
  deriving DecidableEq, Repr

/-- Look at an argument. -/
def Argument.ofText (s : String) : Argument :=
  match s.toList with
  | ['-', '-'] => .mark
  | '-' :: '-' :: rest =>
    let name := String.ofList (rest.takeWhile (· != '='))
    match rest.dropWhile (· != '=') with
    | [] => .long name none
    | _ :: value => .long name (some (String.ofList value))
  | '-' :: letter :: rest => .short (letter :: rest)
  | _ => .word

/-- A number of places: a whole number that fits into 32 bits, perhaps with a sign. -/
def places? (s : String) : Option Nat :=
  let (minus, digits) : Bool × List Char :=
    match s.toList with
    | '-' :: rest => (true, rest)
    | '+' :: rest => (false, rest)
    | rest => (false, rest)
  let n := Nat.ofDigitChars 10 digits 0
  if digits.isEmpty || !digits.all Char.isDigit || (minus && n != 0) || 0x100000000 ≤ n then none
  else some n

/-- What the arguments say. -/
structure Given where
  /-- The file of the settings. -/
  settings : Option String := none
  /-- Every item of the answer gets a line of its own. -/
  pretty : Bool := false
  /-- Messages are structured. -/
  jsonLogs : Bool := false
  /-- The number of places of approximate values. -/
  places : Option Nat := none
  /-- The lower end of drawings. -/
  origin : Option String := none
  /-- The upper end of drawings. -/
  bound : Option String := none
  /-- The expressions. -/
  expressions : List String := []
  deriving DecidableEq, Repr

/-- Let an option take effect, once. -/
def Given.accept (g : Given) (choice : Choice) (value : String) : Except UsageError Given :=
  match choice with
  | .settings =>
    if g.settings.isSome then .error .repeated
    else if value.isEmpty then .error .valueMissing
    else .ok { g with settings := some value }
  | .pretty => if g.pretty then .error .repeated else .ok { g with pretty := true }
  | .jsonLogs => if g.jsonLogs then .error .repeated else .ok { g with jsonLogs := true }
  | .places =>
    if g.places.isSome then .error .repeated
    else
      match places? value with
      | some n => .ok { g with places := some n }
      | none => .error .valueInvalid
  | .origin =>
    if g.origin.isSome then .error .repeated else .ok { g with origin := some value }
  | .bound => if g.bound.isSome then .error .repeated else .ok { g with bound := some value }
  | .help => .error .helpWanted
  | .version => .error .versionWanted

/-- Arguments up to some point. -/
structure Draft where
  /-- What has taken effect. -/
  given : Given := {}
  /-- The last option, unless it has taken effect, with its value if that has come. -/
  pending : Option (Choice × Option String) := none
  /-- There are no more options. -/
  literal : Bool := false
  deriving DecidableEq, Repr

namespace Draft

/-- The option that needs the next argument as its value. -/
def waiting (d : Draft) : Option Choice :=
  match d.pending with
  | some (choice, none) => some choice
  | _ => none

/-- Let the last option take effect. -/
def settle (d : Draft) : Except UsageError Draft :=
  match d.pending with
  | none => .ok d
  | some (_, none) => .error .valueMissing
  | some (choice, some value) => do
    return { d with given := ← d.given.accept choice value, pending := none }

/-- Take an option, perhaps with a value written together with it. -/
def take (d : Draft) (choice : Choice) (value : Option String) : Except UsageError Draft :=
  match value with
  | some v => do
    if choice.takesValue then
      let d ← d.settle
      return { d with given := ← d.given.accept choice v }
    else throw .valueUnwanted
  | none => do
    let d ← d.settle
    if choice.takesValue then return { d with pending := some (choice, none) }
    else return { d with given := ← d.given.accept choice "" }

/-- Take options by their letters. What stands behind the letter of an option with a value
is the value. -/
def takeLetters (within : List Choice) (d : Draft) : List Char → Except UsageError Draft
  | [] => .ok d
  | letter :: rest =>
    match within.find? (·.short? == some letter) with
    | none => .error .optionUnknown
    | some choice =>
      if choice.takesValue then
        let value := if rest.head? = some '=' then rest.tail else rest
        d.take choice (if rest.isEmpty then none else some (String.ofList value))
      else do takeLetters within (← d.take choice none) rest

/-- Take a word that is neither an option nor a value: an expression, where there is a
command. -/
def takeWord (command : Option Command) (d : Draft) (word : String) : Except UsageError Draft :=
  match command with
  | some _ => do
    let d ← d.settle
    return { d with given.expressions := d.given.expressions ++ [word] }
  | none =>
    if d.literal && ((Command.ofName? word).isSome || word = helpWord) then .error .optionUnknown
    else .error .commandUnknown

/-- Take an argument. -/
def step (command : Option Command) (d : Draft) (argument : String) : Except UsageError Draft :=
  if d.literal then d.takeWord command argument
  else if d.waiting.any Choice.takesDashes then .ok (fill d)
  else
    match Argument.ofText argument with
    | .mark => .ok { d with literal := true }
    | .long name value =>
      match (Choice.within command).find? (·.long == name) with
      | some choice => d.take choice value
      | none => .error .optionUnknown
    | .short letters => d.takeLetters (Choice.within command) letters
    | .word => if d.waiting.isSome then .ok (fill d) else d.takeWord command argument
where
  /-- Give the option that waits its value. -/
  fill (d : Draft) : Draft :=
    { d with pending := d.waiting.map fun choice => (choice, some argument) }

end Draft

/-- What is to be done. -/
structure Invocation where
  /-- The command. -/
  command : Command
  /-- The expressions among the arguments. -/
  expressions : List String
  /-- The file of the settings. -/
  settings : Option String
  /-- Every item of the answer gets a line of its own. -/
  pretty : Bool
  /-- The number of places of approximate values. -/
  places : Option Nat
  /-- The lower end of drawings. -/
  origin : Option String
  /-- The upper end of drawings. -/
  bound : Option String
  deriving DecidableEq, Repr

namespace Invocation

/-- What is to be done if the arguments say one thing in front of the command and another
behind it. -/
def make (command : Command) (front behind : Given) : Invocation where
  command
  expressions := behind.expressions
  settings := behind.settings <|> front.settings
  pretty := behind.pretty || front.pretty
  places := behind.places
  origin := behind.origin
  bound := behind.bound

/-- The words behind a call for help name a command, if any. -/
def help : List String → UsageError
  | [] => .helpWanted
  | [word] =>
    if (Command.ofName? word).isSome || word = helpWord then .helpWanted else .commandUnknown
  | _ => .commandUnknown

/-- Read arguments, when some are read already. -/
def readFrom (front : Draft) : List String → Except UsageError Invocation
  | [] => do
    let front ← front.settle
    throw (if front.given = {} then .nothingGiven else .commandMissing)
  | argument :: rest =>
    if front.literal || front.waiting.isSome then do
      readFrom (← front.step none argument) rest
    else if argument = helpWord then .error (help rest)
    else
      match Command.ofName? argument with
      | some command => do
        let behind ← rest.foldlM (Draft.step (some command)) {}
        let behind ← behind.settle
        let front ← front.settle
        return make command front.given behind.given
      | none => do readFrom (← front.step none argument) rest

/-- Read arguments. -/
def ofArguments (arguments : List String) : Except UsageError Invocation :=
  readFrom {} arguments

/-- The parameters of an evaluation, where the arguments count more than the defaults. -/
def parameters (i : Invocation) (defaults : Parameters) : Parameters where
  places := i.places.getD defaults.places
  origin := i.origin.getD defaults.origin
  bound := i.bound.getD defaults.bound

end Invocation

end Reckoner.CommandLine
