import Reckoner.Json.Quoted

/-!
# Structured data

Values made of texts, truth values, numbers, arrays and objects, and two ways to write
them: on one line without blanks, or with every item on a line of its own.
-/

namespace Reckoner

/-- A value. The members of an object keep their order. A string or the name of a member
can be something else than text, which `none` stands for. -/
inductive Json where
  | null
  | boolean (value : Bool)
  | number (digits : List Char)
  | string (value : Option String)
  | array (items : List Json)
  | object (members : List (Option String × Json))
  deriving Inhabited

namespace Json

/-- A string as a value. -/
def text (s : String) : Json := string (some s)

/-- An object with named members. -/
def record (members : List (String × Json)) : Json :=
  object (members.map fun (name, value) => (some name, value))

/-- Strings in an array. -/
def texts (ss : List String) : Json := array (ss.map text)

/-- A string between quotes; what is no text is left out. -/
def quoted (s : Option String) : String := String.ofList (Quoted.encode (s.getD "").toList)

/-- Items between brackets. -/
def bracketed (left right : String) (items : List String) : String :=
  left ++ String.intercalate "," items ++ right

mutual

/-- A value on one line, without blanks. -/
def compact : Json → String
  | null => "null"
  | boolean true => "true"
  | boolean false => "false"
  | number digits => String.ofList digits
  | string s => quoted s
  | array items => bracketed "[" "]" (compactAll items)
  | object members => bracketed "\x7b" "\x7d" (compactMembers members)

/-- Values on one line each. -/
def compactAll : List Json → List String
  | [] => []
  | j :: rest => compact j :: compactAll rest

/-- Members on one line each. -/
def compactMembers : List (Option String × Json) → List String
  | [] => []
  | (name, j) :: rest => (quoted name ++ ":" ++ compact j) :: compactMembers rest

end

/-- A line break and two blanks for each level. -/
def newline (level : Nat) : String := "\n" ++ String.ofList (List.replicate (2 * level) ' ')

/-- Items between brackets, each on a line of its own one level deeper. -/
def indented (left right : String) (level : Nat) (items : List String) : String :=
  if items.isEmpty then left ++ right
  else
    left ++ newline (level + 1) ++ String.intercalate ("," ++ newline (level + 1)) items ++
      newline level ++ right

mutual

/-- A value with every item on a line of its own. -/
def pretty (level : Nat) : Json → String
  | array items => indented "[" "]" level (prettyAll (level + 1) items)
  | object members => indented "\x7b" "\x7d" level (prettyMembers (level + 1) members)
  | null => "null"
  | boolean true => "true"
  | boolean false => "false"
  | number digits => String.ofList digits
  | string s => quoted s

/-- Values with every item on a line of its own. -/
def prettyAll (level : Nat) : List Json → List String
  | [] => []
  | j :: rest => pretty level j :: prettyAll level rest

/-- Members with every item on a line of its own. -/
def prettyMembers (level : Nat) : List (Option String × Json) → List String
  | [] => []
  | (name, j) :: rest => (quoted name ++ ": " ++ pretty level j) :: prettyMembers level rest

end

end Json

end Reckoner
