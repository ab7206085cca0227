/-!
# Tables of settings

A document is a table whose items are named. An item is a plain value, a table, or several
tables under one name. A table remembers how it came about, because that decides whether
more may be put into it later.
-/

namespace Reckoner.Toml

/-- How a table came about. -/
inductive Kind where
  /-- By a header of its own. -/
  | declared
  /-- By the header of a table inside it. -/
  | implied
  /-- By a dotted key. -/
  | dotted
  /-- Between braces. -/
  | inline
  /-- By a dotted key between braces. -/
  | inlineDotted
  deriving DecidableEq, Repr

/-- The table is a part of a value. -/
def Kind.isInline (k : Kind) : Bool := k = inline || k = inlineDotted

/-- The table has no definition of its own that would be complete. -/
def Kind.isOpen (k : Kind) : Bool := k = implied || k = dotted || k = inlineDotted

/-- Named items in the order in which they were put in. -/
structure Table (α : Type) where
  /-- How the table came about. -/
  kind : Kind
  /-- The items with their names. -/
  entries : List (String × α) := []

namespace Table

variable {α : Type}

/-- The item of a name. -/
def get? (t : Table α) (name : String) : Option α := t.entries.lookup name

/-- Put an item where its name stands, or at the end. -/
def set (t : Table α) (name : String) (a : α) : Table α :=
  if t.entries.any (·.1 == name) then
    { t with entries := t.entries.map fun e => if e.1 == name then (name, a) else e }
  else { t with entries := t.entries ++ [(name, a)] }

/-- Take the item of a name out. -/
def erase (t : Table α) (name : String) : Table α :=
  { t with entries := t.entries.filter (·.1 != name) }

end Table

/-- What a name stands for. -/
inductive Value where
  /-- Text between quotes. -/
  | text (s : String)
  /-- A whole number. -/
  | integer (n : Int)
  /-- A number with a fraction or an exponent. -/
  | float (x : Float)
  /-- A truth value. -/
  | boolean (b : Bool)
  /-- A date, a time of day, or both. -/
  | moment
  /-- Values between brackets. -/
  | array (items : List Value)
  /-- A table. -/
  | table (t : Table Value)
  /-- The tables of a repeated header, with the latest of them. -/
  | tables (earlier : List (Table Value)) (latest : Table Value)

/-- A name at the end of a path of names. -/
structure Key where
  /-- The names of the tables on the way. -/
  path : List String
  /-- The name itself. -/
  name : String
  deriving DecidableEq, Repr

namespace Table

/-- Go down a path and change the table at its end. What is missing on the way is made with
the given kind; of several tables under one name the latest is meant; a way into a table is
open if its kind is. -/
def alter (made : Kind) (enters : Kind → Bool) (change : Table Value → Option (Table Value)) :
    List String → Table Value → Option (Table Value)
  | [], t => change t
  | name :: path, t =>
    match t.get? name with
    | none => do return t.set name (.table (← alter made enters change path ⟨made, []⟩))
    | some (.table u) =>
      if enters u.kind then do return t.set name (.table (← alter made enters change path u))
      else none
    | some (.tables earlier latest) => do
      return t.set name (.tables earlier (← alter made enters change path latest))
    | some _ => none

/-- Put a value under a dotted key. The tables on the way are made by dotted keys only, and
the name is new. -/
def put (made : Kind) (key : Key) (v : Value) : Table Value → Option (Table Value) :=
  alter made Kind.isOpen change key.path
where
  /-- Put the value into the table at the end of the way. -/
  change (t : Table Value) : Option (Table Value) :=
    if (key.path.isEmpty || t.kind = made) && (t.get? key.name).isNone then
      some (t.set key.name v)
    else none

/-- Do something with the table at the end of a header's path. -/
def under (path : List String) (change : Table Value → Option (Table Value)) :
    Table Value → Option (Table Value) :=
  alter .implied (fun k => !k.isInline) change path

/-- Declare a table. One that is there already may only have been implied. -/
def declare (key : Key) : Table Value → Option (Table Value) :=
  under key.path fun t =>
    match t.get? key.name with
    | none => some (t.set key.name (.table ⟨.declared, []⟩))
    | some (.table u) =>
      if u.kind = .implied then
        some ((t.erase key.name).set key.name (.table { u with kind := .declared }))
      else none
    | some _ => none

/-- Declare one more table under a name. -/
def declareNext (key : Key) : Table Value → Option (Table Value) :=
  under key.path fun t =>
    match t.get? key.name with
    | none => some (t.set key.name (.tables [] ⟨.declared, []⟩))
    | some (.tables earlier latest) =>
      some (t.set key.name (.tables (earlier ++ [latest]) ⟨.declared, []⟩))
    | some _ => none

end Table

/-- A line of a document. -/
inductive Line where
  /-- The header of a table. -/
  | header (key : Key)
  /-- The header of one of several tables. -/
  | nextHeader (key : Key)
  /-- A value under a dotted key. -/
  | entry (key : Key) (value : Value)

/-- A document up to some line. -/
structure Draft where
  /-- Everything that was put in. -/
  root : Table Value := ⟨.declared, []⟩
  /-- The path of the header in force. -/
  header : List String := []

/-- Take one line more. -/
def Draft.step (d : Draft) : Line → Option Draft
  | .header key => do return ⟨← d.root.declare key, key.path ++ [key.name]⟩
  | .nextHeader key => do return ⟨← d.root.declareNext key, key.path ++ [key.name]⟩
  | .entry key value => do
    return { d with root := ← d.root.under d.header (Table.put .dotted key value) }

/-- The table that lines describe. -/
def Table.ofLines? (lines : List Line) : Option (Table Value) :=
  (lines.foldlM Draft.step {}).map Draft.root

/-- The table that members between braces describe. -/
def Table.ofMembers? (members : List (Key × Value)) : Option (Table Value) :=
  members.foldlM (fun t (key, v) => t.put .inlineDotted key v) ⟨.inline, []⟩

end Reckoner.Toml
