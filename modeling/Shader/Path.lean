/-!
# Paths

A path is a text whose parts stand between slashes. The functions here look at the text alone, not
at any file.
-/

namespace Shader.Path

def split (path : String) : List String := (path.toList.splitOn '/').map String.ofList

def parts (path : String) : List String := (split path).filter (· ≠ "")

def isRooted (path : String) : Bool := path.toList.head? = some '/'

/-- Adds a part to parts that are clean, last one first. A part `..` takes the part before it away;
at the root it means nothing. -/
def pushPart (rooted : Bool) (done : List String) (part : String) : List String :=
  if part = "." then done
  else if part = ".." then
    match done with
    | [] => if rooted then [] else [".."]
    | last :: rest => if last = ".." then ".." :: done else rest
  else part :: done

def cleanParts (path : String) : List String :=
  ((parts path).foldl (pushPart (isRooted path)) []).reverse

def ofParts (rooted : Bool) (parts : List String) : String :=
  let text := "/".intercalate parts
  if rooted then "/" ++ text else if parts.isEmpty then "." else text

def clean (path : String) : String := ofParts (isRooted path) (cleanParts path)

def join (directory name : String) : String :=
  if directory = "" then (if name = "" then "" else clean name)
  else clean (directory ++ "/" ++ name)

def base (path : String) : String :=
  match (parts path).getLast? with
  | some last => last
  | none => if path = "" then "." else "/"

def extension (path : String) : String :=
  let last := path.toList.reverse.takeWhile (· ≠ '/')
  match last.findIdx? (· = '.') with
  | some i => String.ofList (last.take (i + 1)).reverse
  | none => ""

def stem (path : String) : String :=
  let name := base path
  let ext := extension path
  if ext ≠ "" && ext.toList.isSuffixOf name.toList then
    String.ofList (name.toList.take (name.length - ext.length))
  else name

def ancestors (path : String) : List String :=
  let ps := cleanParts path
  (List.range (ps.length + 1)).reverse.map fun n => ofParts (isRooted path) (ps.take n)

/-- The beginnings of a path that end before one of its parts, outermost first, and then the whole
path. `done` is what was read of it. -/
def beginningsFrom (done : List Char) : List Char → List (List Char)
  | [] => [done]
  | c :: rest =>
    let more := beginningsFrom (done ++ [c]) rest
    if done.getLast? = some '/' && c ≠ '/' then done :: more else more

def beginnings (path : String) : List String :=
  (beginningsFrom [] path.toList).map String.ofList

end Shader.Path
