/-!
# Type names

A type is written as a name, as the name of a pointer `T*`, or as an instance `Outer<Inner>` of a
generic type. The written name is the identity of a type; the functions here take it apart.
-/

namespace Shader.Program.TypeName

def isPointer (name : String) : Bool := name.toList.getLast? = some '*'

def withoutStar (name : String) : String :=
  if isPointer name then String.ofList name.toList.dropLast else name

/-- The name of an instance cut into template and argument. -/
def splitInstance? (name : String) : Option (String × String) :=
  let outer := name.toList.takeWhile (· ≠ '<')
  match name.toList.dropWhile (· ≠ '<') with
  | _ :: inner =>
    if outer ≠ [] && inner.getLast? = some '>' then
      some (String.ofList outer, String.ofList inner.dropLast)
    else none
  | [] => none

theorem splitInstance?_lt {name outer inner : String}
    (h : splitInstance? name = some (outer, inner)) :
    outer.length < name.length ∧ inner.length < name.length := by
  have split : name.toList.takeWhile (· ≠ '<') ++ name.toList.dropWhile (· ≠ '<') =
      name.toList := List.takeWhile_append_dropWhile
  unfold splitInstance? at h
  dsimp only at h
  split at h
  · next c rest hd =>
    split at h
    · have len := congrArg List.length split
      rw [hd] at len
      simp only [List.length_append, List.length_cons, String.length_toList] at len
      cases h
      simp only [String.length_ofList, List.length_dropLast]
      omega
    · cases h
  · cases h

end Shader.Program.TypeName
