import Shader.CommandLine.Run

/-!
# The program

Reads the files that a command line can ask for, runs the command on them, and writes what it
changed.
-/

namespace Shader.Main

open CommandLine

def needed (directory : String) (arguments : List String) : List String :=
  match parseFlags arguments with
  | .error _ => []
  | .ok (choices, inputs) =>
    let settings :=
      if choices.settings = "" then Settings.candidates directory else [choices.settings]
    let results := inputs.map (resultPath choices.output)
    settings ++ inputs ++ (if choices.output = "" then [] else choices.output :: results)

def look (store : FileStore) (path : String) : IO FileStore := do
  let place := Path.cleanParts path
  if place.isEmpty || (store.entry? place).isSome then return store
  let real ← IO.FS.realPath path
  if ← real.isDir then return store.put place .directory
  if ← real.pathExists then
    let content ← IO.FS.readBinFile path
    return store.put place (.file (Source.ofBytes content.toList))
  return store

def snapshot (directory : String) (arguments : List String) : IO FileStore := do
  let mut store : FileStore := ⟨Path.cleanParts directory, []⟩
  for path in directory :: needed directory arguments do
    let full := if Path.isRooted path then path else directory ++ "/" ++ path
    for beginning in Path.beginnings full do
      store ← look store beginning
  return store

def save (place : Location) (entry : Entry) : IO Unit := do
  let path := Path.ofParts true place
  match entry with
  | .directory => IO.FS.createDirAll path
  | .file content => IO.FS.writeBinFile path ⟨content.toBytes.toArray⟩

end Shader.Main

def main (arguments : List String) : IO UInt32 := do
  let directory := toString (← IO.currentDir)
  let store ← Shader.Main.snapshot directory arguments
  let terminal ← (← IO.getStdout).isTty
  let outcome := Shader.CommandLine.run terminal store arguments
  for (place, entry) in outcome.store.changes store do
    Shader.Main.save place entry
  IO.print outcome.output
  IO.eprint outcome.errors
  return outcome.exit
