/-
  HornClause.Files.Directory

  A working directory as data, and what its paths lead to. A path is followed one
  component at a time; nothing but a directory has components below it.
-/
import HornClause.Files.Basic

namespace HornClause

/-- What a directory holds: a file with its bytes, or a directory with nothing in it. -/
inductive Entry where
  | file (bytes : List UInt8)
  | directory

/-- The working directory, as names and what they stand for. -/
structure Directory where
  entries : List (String × Entry)

namespace Directory

/-- The greatest number of bytes in a name. -/
def nameLimit : Nat := 255

/-- The greatest number of bytes in a path. -/
def pathLimit : Nat := 4095

/-! ## Paths -/

/-- Where a path has led to. -/
inductive Place where
  /-- The working directory itself. -/
  | here
  /-- A directory above it, of whose other content nothing is known. -/
  | above
  /-- A directory in it. -/
  | inside
  /-- A file in it. -/
  | file (bytes : List UInt8)

/-- Follows one component of a path. An empty one stays where it is. -/
def follow (d : Directory) (place : Place) (component : String) : Except ReadError Place :=
  match place with
  | .file _ => .error .notDirectory
  | .here | .above | .inside =>
    if component = "" ∨ component = "." then .ok place
    else if component = ".." then
      match place with
      | .inside => .ok .here
      | _ => .ok .above
    else if component.utf8ByteSize > nameLimit then .error .nameTooLong
    else match place, d.entries.lookup component with
      | .here, some (.file bytes) => .ok (.file bytes)
      | .here, some .directory => .ok .inside
      | _, _ => .error .missing

/-- Follows a path to where it leads. One that starts with a slash starts above. -/
def locate (d : Directory) (path : String) : Except ReadError Place :=
  let start := if path.toList.head? = some '/' then Place.above else .here
  ((path.toList.splitOn '/').map String.ofList).foldlM d.follow start

/-- Reads the file that a path leads to. -/
def read (d : Directory) : Files := fun path =>
  if '\x00' ∈ path.toList then .error .nulInName
  else if path = "" then .error .missing
  else if path.utf8ByteSize > pathLimit then .error .nameTooLong
  else do
    match ← d.locate path with
    | .file bytes =>
        match Text.decode bytes with
        | some text => return text
        | none => .error .notText
    | _ => .error .isDirectory

end Directory

end HornClause
