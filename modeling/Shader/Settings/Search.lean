import Shader.FileStore
import Shader.Settings.Reader

/-!
# Finding settings

Settings stand in a file named `beslc.yaml` or `.beslc.yaml`, in the directory of the work or in the
nearest one around it.
-/

namespace Shader.Settings

def fileNames : List String := ["beslc.yaml", ".beslc.yaml"]

/-- Why settings cannot be loaded. -/
inductive LoadError where
  | file (error : FileError)
  | content (path : String) (error : ReadError)
  deriving Repr, DecidableEq

def LoadError.message : LoadError → String
  | .file error => error.message
  | .content path error => path ++ ": " ++ error.message

def load (store : FileStore) (path : String) : Except LoadError Settings :=
  match store.read path with
  | .error e => .error (.file e)
  | .ok source =>
    match ofSource source with
    | .ok settings => .ok settings
    | .error e => .error (.content path e)

def candidates (directory : String) : List String :=
  (Path.ancestors directory).flatMap fun d => fileNames.map (Path.join d)

def search (store : FileStore) (directory : String) :
    Except LoadError (Option (Settings × String)) :=
  match (candidates directory).find? store.has with
  | none => .ok none
  | some path => do
    let settings ← load store path
    return some (settings, path)

end Shader.Settings
