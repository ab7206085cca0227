/-!
# Commands and options

A command says what is done with expressions. Some options are understood everywhere, in
front of the command as well as behind it, the others by one command only.
-/

namespace Reckoner.CommandLine

/-- What is done with expressions. -/
inductive Command where
  /-- They are evaluated as one batch. -/
  | eval
  /-- The shape of each is told. -/
  | classify
  /-- Each is normalized or refused. -/
  | validate
  deriving DecidableEq, Repr

namespace Command

/-- All commands. -/
def all : List Command := [eval, classify, validate]

/-- The word for a command. -/
def name : Command → String
  | eval => "eval"
  | classify => "classify"
  | validate => "validate"

/-- The command of a word. -/
def ofName? (s : String) : Option Command := all.find? (·.name == s)

theorem ofName?_name (c : Command) : ofName? c.name = some c := by cases c <;> decide

end Command

/-- The word that asks for help instead of a command. -/
def helpWord : String := "help"

/-- An option. -/
inductive Choice where
  /-- The file of the settings. -/
  | settings
  /-- Every item of the answer gets a line of its own. -/
  | pretty
  /-- Messages are structured. -/
  | jsonLogs
  /-- The number of places of approximate values. -/
  | places
  /-- The lower end of drawings. -/
  | origin
  /-- The upper end of drawings. -/
  | bound
  /-- Help is asked for. -/
  | help
  /-- The version is asked for. -/
  | version
  deriving DecidableEq, Repr

namespace Choice

/-- The name behind two dashes. -/
def long : Choice → String
  | settings => "config"
  | pretty => "pretty"
  | jsonLogs => "log-json"
  | places => "decimals"
  | origin => "origin"
  | bound => "bound"
  | help => "help"
  | version => "version"

/-- The letter behind one dash. -/
def short? : Choice → Option Char
  | settings => some 'c'
  | places => some 'd'
  | help => some 'h'
  | version => some 'V'
  | pretty | jsonLogs | origin | bound => none

/-- The option has a value. -/
def takesValue : Choice → Bool
  | settings | places | origin | bound => true
  | pretty | jsonLogs | help | version => false

/-- The value may look like an option. -/
def takesDashes : Choice → Bool
  | origin | bound => true
  | _ => false

/-- The options that are understood in front of a command, or behind it. -/
def within : Option Command → List Choice
  | none => [settings, pretty, jsonLogs, help, version]
  | some .eval => [settings, pretty, jsonLogs, help, places, origin, bound]
  | some .classify | some .validate => [settings, pretty, jsonLogs, help]

end Choice

/-- Why arguments say nothing that could be done. -/
inductive UsageError where
  /-- Help is asked for. -/
  | helpWanted
  /-- The version is asked for. -/
  | versionWanted
  /-- There are no arguments. -/
  | nothingGiven
  /-- There are options without a command. -/
  | commandMissing
  /-- A word is no command. -/
  | commandUnknown
  /-- An option is not understood where it stands. -/
  | optionUnknown
  /-- An option lacks its value. -/
  | valueMissing
  /-- The value of an option is not one of its values. -/
  | valueInvalid
  /-- An option without value has one. -/
  | valueUnwanted
  /-- An option is given once more. -/
  | repeated
  deriving DecidableEq, Repr

/-- Nothing went wrong: the arguments ask about the program itself. -/
def UsageError.isQuestion (e : UsageError) : Bool := e = .helpWanted || e = .versionWanted

/-- What is said about arguments. -/
def UsageError.message : UsageError → String
  | .helpWanted | .nothingGiven =>
    "Usage: sigma [OPTIONS] <COMMAND> [EXPRESSIONS]...\n\n" ++
      "Commands: eval, classify, validate, help\n" ++
      "Options: -c, --config <PATH>; --pretty; --log-json; -h, --help; -V, --version\n" ++
      "Options of eval: -d, --decimals <N>; --origin <X>; --bound <X>"
  | .versionWanted => "sigma 0.1.0"
  | .commandMissing => "a command is required"
  | .commandUnknown => "there is no such command"
  | .optionUnknown => "there is no such option"
  | .valueMissing => "an option lacks its value"
  | .valueInvalid => "an option has an invalid value"
  | .valueUnwanted => "an option has a value, but needs none"
  | .repeated => "an option cannot be given more than once"

end Reckoner.CommandLine
