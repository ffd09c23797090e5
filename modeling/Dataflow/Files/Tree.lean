import Dataflow.Files.Error

/-! Files held in memory, and the rules by which a path names one of them. -/

namespace Dataflow.Files

/-- Something that looks like a file but stores nothing. -/
inductive Device where
  | null
  | full
  | input
  | output
  | error
deriving DecidableEq

/-- What stands at a place. -/
inductive Entry where
  | directory
  | file (content : ByteArray)
  | device (device : Device)

/-- A place in a tree: the names on the way from its root. -/
abbrev Place := List String

/-- A path as it is written. -/
structure Path where
  /-- Whether it starts at the root. -/
  absolute : Bool
  /-- The names between its slashes. -/
  names : List String
  /-- Whether a slash stands at its end, which asks for a directory. -/
  slashed : Bool

namespace Path

/-- The number of bytes from which on a path is too long. -/
def tooLong : Nat := 4096

/-- The number of bytes a name may have. -/
def longestName : Nat := 255

/-- The path that a text writes; several slashes count as one. -/
def ofText (text : String) : Path where
  absolute := text.startsWith "/"
  names := (text.splitOn "/").filter (· ≠ "")
  slashed := text.endsWith "/"

end Path

/-- Directories, files and devices, with the directory in which paths start. -/
structure Tree where
  /-- Everything below the root, the latest entry for a place first. -/
  entries : List (Place × Entry)
  /-- The directory in which a path starts that does not start at the root. -/
  working : Place

namespace Tree

def entry? (tree : Tree) (place : Place) : Option Entry :=
  if place.isEmpty then some .directory else tree.entries.lookup place

def put (tree : Tree) (place : Place) (entry : Entry) : Tree :=
  { tree with entries := (place, entry) :: tree.entries }

/-- Refuses a place that is no directory. -/
def requireDirectory (tree : Tree) (place : Place) : Except FileError Unit :=
  match tree.entry? place with
  | some .directory => .ok ()
  | some _ => .error .notDirectory
  | none => .error .notFound

/-- The place that a name leads to from a directory. -/
def step (tree : Tree) (place : Place) (name : String) : Except FileError Place := do
  tree.requireDirectory place
  match name with
  | "." => return place
  -- The root is its own parent.
  | ".." => return place.dropLast
  | _ => if Path.longestName < name.utf8ByteSize then throw .nameTooLong else return place ++ [name]

/-- The place that names lead to from where a path starts; only what is on the way has to exist. -/
def walk (tree : Tree) (path : Path) (names : List String) : Except FileError Place :=
  names.foldlM tree.step (if path.absolute then [] else tree.working)

/-- The path that a text writes, unless it is too long. -/
def parsePath (text : String) : Except FileError Path :=
  if text.utf8ByteSize < Path.tooLong then .ok (.ofText text) else .error .nameTooLong

def open? (tree : Tree) (text : String) : Except FileError Entry := do
  let path ← parsePath text
  let place ← tree.walk path path.names
  match tree.entry? place with
  | none => throw .notFound
  | some .directory => throw .isDirectory
  | some entry => if path.slashed then throw .notDirectory else return entry

/-- The place that can be written to at a path, where a new file may be made. -/
def create? (tree : Tree) (text : String) : Except FileError Place := do
  let path ← parsePath text
  let parent ← tree.walk path path.names.dropLast
  tree.requireDirectory parent
  match path.names.getLast? with
  | none | some "." | some ".." => throw .isDirectory
  | some name =>
    -- A slash at the end asks for a directory, whether or not there is one.
    if path.slashed then throw .isDirectory
    let place ← tree.step parent name
    match tree.entry? place with
    | some .directory => throw .isDirectory
    | _ => return place

end Tree

end Dataflow.Files
