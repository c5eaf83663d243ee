import Shader.Path
import Shader.Source

/-!
# Files

A file store is what a command sees of the files around it: files and directories below the root,
and the directory in which it runs. A path is followed part by part: every part but the last has to
be a directory.
-/

namespace Shader

/-- What can be wrong with a path. -/
inductive FileFault where
  | notFound
  | notDirectory
  | isDirectory
  | present
  deriving Repr, DecidableEq

def FileFault.message : FileFault → String
  | .notFound => "no such file or directory"
  | .notDirectory => "not a directory"
  | .isDirectory => "is a directory"
  | .present => "file exists"

/-- What was tried with a path when it failed. -/
inductive FileOperation where
  | opening
  | reading
  | makingDirectory
  deriving Repr, DecidableEq

def FileOperation.name : FileOperation → String
  | .opening => "open"
  | .reading => "read"
  | .makingDirectory => "mkdir"

/-- A failed operation on a path. -/
structure FileError where
  operation : FileOperation
  path : String
  fault : FileFault
  deriving Repr, DecidableEq

def FileError.message (e : FileError) : String :=
  e.operation.name ++ " " ++ e.path ++ ": " ++ e.fault.message

/-- What can stand at a place: a file with its content, or a directory. -/
inductive Entry where
  | file (content : Source)
  | directory
  deriving Repr, DecidableEq

/-- A place in a store: the parts of its path from the root. -/
abbrev Location := List String

/-- The files that a command sees and writes. -/
structure FileStore where
  workingDirectory : Location
  /-- What stands at each place other than the root, each place once. -/
  entries : List (Location × Entry)
  deriving Repr, DecidableEq

namespace FileStore

def entry? (s : FileStore) (place : Location) : Option Entry :=
  if place.isEmpty then some .directory else s.entries.lookup place

/-- Sets what stands at a place. -/
def put (s : FileStore) (place : Location) (entry : Entry) : FileStore :=
  if s.entries.any (·.1 = place) then
    { s with entries := s.entries.map fun (p, e) => (p, if p = place then entry else e) }
  else { s with entries := s.entries ++ [(place, entry)] }

def isDirectory (s : FileStore) (place : Location) : Bool := s.entry? place = some .directory

/-- Follows the parts of a path from a place. An empty part means the place itself. -/
def follow (s : FileStore) (place : Location) : List String → Except FileFault Location
  | [] => .ok place
  | part :: rest =>
    if !s.isDirectory place then .error .notDirectory
    else if part = "" || part = "." then s.follow place rest
    else if part = ".." then s.follow place.dropLast rest
    else if (s.entry? (place ++ [part])).isSome then s.follow (place ++ [part]) rest
    else .error .notFound

def origin (s : FileStore) (path : String) : Location :=
  if Path.isRooted path then [] else s.workingDirectory

/-- The place that a path leads to. -/
def locate (s : FileStore) (path : String) : Except FileFault Location :=
  if path = "" then .error .notFound else s.follow (s.origin path) (Path.split path)

def find? (s : FileStore) (path : String) : Option Entry :=
  match s.locate path with
  | .ok place => s.entry? place
  | .error _ => none

def has (s : FileStore) (path : String) : Bool := (s.find? path).isSome

/-- The content of a file. -/
def read (s : FileStore) (path : String) : Except FileError Source :=
  match s.locate path with
  | .error fault => .error ⟨.opening, path, fault⟩
  | .ok place =>
    match s.entry? place with
    | some (.file content) => .ok content
    | some .directory => .error ⟨.reading, path, .isDirectory⟩
    | none => .error ⟨.opening, path, .notFound⟩

def slot (s : FileStore) (path : String) (parts : List String) :
    Except FileFault (Location × String) :=
  match parts.getLast? with
  | none => .error .notFound
  | some last => do
    let parent ← s.follow (s.origin path) parts.dropLast
    if s.isDirectory parent then return (parent, last) else throw .notDirectory

def isDots (part : String) : Bool := part = "" || part = "." || part = ".."

/-- Writes a file. Its directory has to exist, and what it held before is lost. -/
def write (s : FileStore) (path : String) (content : Source) : Except FileError FileStore :=
  let fail (fault : FileFault) : Except FileError FileStore := .error ⟨.opening, path, fault⟩
  if path = "" then fail .notFound
  else match s.slot path (Path.split path) with
    | .error fault => fail fault
    | .ok (parent, name) =>
      if isDots name || s.isDirectory (parent ++ [name]) then fail .isDirectory
      else .ok (s.put (parent ++ [name]) (.file content))

def makeDirectory (s : FileStore) (path : String) : Except FileFault FileStore :=
  let parts := (Path.split path).reverse.dropWhile (· = "")
  if parts.isEmpty then .error (if path = "" then .notFound else .present)
  else do
    let (parent, name) ← s.slot path parts.reverse
    if isDots name || (s.entry? (parent ++ [name])).isSome then throw .present
    return s.put (parent ++ [name]) .directory

def ensureDirectory (s : FileStore) (path : String) : Except FileError FileStore :=
  match s.find? path with
  | some .directory => .ok s
  | some (.file _) => .error ⟨.makingDirectory, path, .notDirectory⟩
  | none =>
    match s.makeDirectory path with
    | .ok s => .ok s
    | .error fault =>
      if s.find? path = some .directory then .ok s
      else .error ⟨.makingDirectory, path, fault⟩

/-- Makes a directory and the directories around it, as far as they are not there. The directories
that were made before one that cannot be made stay. -/
def makeDirectories (s : FileStore) (path : String) : FileStore × Option FileError :=
  (Path.beginnings path).foldl
    (fun (s, error) path =>
      match error with
      | some e => (s, some e)
      | none =>
        match s.ensureDirectory path with
        | .ok s => (s, none)
        | .error e => (s, some e))
    (s, none)

def changes (s before : FileStore) : List (Location × Entry) :=
  s.entries.filter fun (place, entry) => before.entry? place ≠ some entry

end FileStore

end Shader
