import LispSyntax.Text.Basic

/-! # Folders

The files below a working folder, and what a path leads to. A path is a list of names between slashes: an
empty name or `.` stays where it is, `..` goes up, and every other name goes down. Each step needs a
folder to stand in, so a slash after a file is refused. A path may go up past the working folder, where it
meets folders but none of the files. `Folder.read` gives the contents of the file that a path leads to.
-/

namespace LispSyntax

namespace CommandLine

inductive PathProblem where
  | missing
  | notFolder
  | isFolder
  | nameTooLong
deriving DecidableEq, Repr

def PathProblem.message : PathProblem → String
  | missing => "No such file or directory (os error 2)"
  | notFolder => "Not a directory (os error 20)"
  | isFolder => "Is a directory (os error 21)"
  | nameTooLong => "File name too long (os error 36)"

def pathNames : Text → List Text
  | [] => [[]]
  | c :: cs =>
    if c = '/' then [] :: pathNames cs
    else
      match pathNames cs with
      | [] => [[c]]
      | name :: names => (c :: name) :: names

/-- A place that a path leads to: in the working folder, by the names that lead there, or somewhere above
it. -/
inductive Place where
  | within (names : List Text)
  | above
deriving DecidableEq, Repr

/-- The place one level up; above the working folder there are only folders, up to the topmost one. -/
def Place.parent : Place → Place
  | within [] | above => above
  | within names => within names.dropLast

structure Folder where
  files : List (List Text × ByteArray)

namespace Folder

def ofFiles (files : List (String × ByteArray)) : Folder :=
  ⟨files.map fun (path, bytes) => (pathNames path.toList, bytes)⟩

inductive Entry where
  | file (bytes : ByteArray)
  | folder

/-- The entry at a place; the places on the way to a file are folders. -/
def entry? (f : Folder) : Place → Option Entry
  | .above => some .folder
  | .within names =>
    match f.files.find? (·.1 == names) with
    | some (_, bytes) => some (.file bytes)
    | none =>
      if names.isEmpty || f.files.any (names.isPrefixOf ·.1) then some .folder else none

def nameBound : Nat :=
  255

def pathBound : Nat :=
  4095

/-- The place that a name leads to from a folder. Only the working folder is known by its names. -/
def step (place : Place) (name : Text) : Except PathProblem Place :=
  if name.isEmpty || name == ['.'] then .ok place
  else if name == ['.', '.'] then .ok place.parent
  else if nameBound < name.size then .error .nameTooLong
  else
    match place with
    | .within names => .ok (.within (names ++ [name]))
    | .above => .error .missing

def follow (f : Folder) (place : Place) : List Text → Except PathProblem Entry
  | [] =>
    match f.entry? place with
    | some entry => .ok entry
    | none => .error .missing
  | name :: names =>
    match f.entry? place with
    | none => .error .missing
    | some (.file _) => .error .notFolder
    | some .folder => do f.follow (← step place name) names

/-- The place where a path starts: one that begins with a slash starts at the topmost folder. -/
def startOf : Text → Place
  | '/' :: _ => .above
  | _ => .within []

/-- The contents of the file that a path leads to. The empty path leads nowhere. -/
def read (f : Folder) (path : String) : Except PathProblem ByteArray := do
  let text : Text := path.toList
  if text.isEmpty then throw .missing
  if pathBound < text.size then throw .nameTooLong
  match ← f.follow (startOf text) (pathNames text) with
  | .file bytes => return bytes
  | .folder => throw .isFolder

end Folder

end CommandLine

end LispSyntax
