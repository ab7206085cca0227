/-!
# Surroundings

Settings come from a file and from environment variables. What is found at a path is a text,
something else, or nothing; a flat folder of texts answers that for every path.
-/

namespace Reckoner

/-- What is found at a path. -/
inductive Found where
  /-- A file with a text in it. -/
  | text (content : String)
  /-- Something that cannot be read as a text. -/
  | unreadable (reason : String)
  /-- Nothing. -/
  | nothing (reason : String)
  deriving DecidableEq, Repr

/-- Where a program runs. -/
structure Surroundings where
  /-- The values of environment variables. -/
  environment : String → Option String
  /-- What is found at paths. -/
  find : String → Found

/-- Texts by the names of their files. -/
structure Folder where
  /-- The files. -/
  files : List (String × String) := []
  deriving DecidableEq, Repr

namespace Folder

/-- A directory is there, but it is no text. -/
def directory : Found := .unreadable "Is a directory (os error 21)"

/-- Nothing has that name. -/
def missing : Found := .nothing "No such file or directory (os error 2)"

/-- A way leads on from a file. -/
def beyondFile : Found := .nothing "Not a directory (os error 20)"

/-- A name is longer than names can be. -/
def tooLong : Found := .nothing "File name too long (os error 36)"

/-- Nothing is found under a name, and a name that is too long is no name. -/
def unknown (name : String) : Found := if 255 < name.utf8ByteSize then tooLong else missing

/-- Above the folder there are only directories without other names in them. -/
def above : List String → Found
  | [] => directory
  | name :: rest => if name = "" ∨ name = "." ∨ name = ".." then above rest else unknown name

/-- Follow the names of a path inside the folder. -/
def follow (folder : Folder) : List String → Found
  | [] => directory
  | name :: rest =>
    if name = "" ∨ name = "." then folder.follow rest
    else if name = ".." then above rest
    else
      match folder.files.lookup name with
      | some content => if rest.isEmpty then .text content else beyondFile
      | none => unknown name

/-- The names of a path. -/
def names (path : List Char) : List String :=
  (path.foldr (fun c parts =>
    match parts with
    | part :: parts => if c = '/' then [] :: part :: parts else (c :: part) :: parts
    | [] => []) [[]]).map String.ofList

/-- What is found at a path. -/
def find (folder : Folder) (path : String) : Found :=
  if path.toList.contains '\x00' then .nothing "file name contained an unexpected NUL byte"
  else if path = "" then missing
  else if 4095 < path.utf8ByteSize then tooLong
  else if path.toList.head? = some '/' then above (names path.toList)
  else folder.follow (names path.toList)

end Folder

end Reckoner
