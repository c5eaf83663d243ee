import Shader.Json.Reader
import Shader.Program.TypeTable
import Shader.Text.Numeral

/-!
# Program descriptions

A program can be given as a JSON object of type `scope` whose object-valued fields are its
declarations, each named by its key. Fields of other kinds are attributes. The order of the fields
is the order of the declarations; of doubled attributes the first counts.
-/

namespace Shader.Program

open Text

/-- Why a JSON value does not describe a node. -/
inductive DescriptionFault where
  | unsupported (name kind : String)
  | missingType
  | fieldKind (name : String)
  | memberKind (name : String)
  | notNumber (key : String)
  | badNumber (key text : String) (fault : CountFault)
  | notTexts (key : String)
  | unknownResource (kind : String)
  | inside (label name : String) (fault : DescriptionFault)
  deriving Repr, DecidableEq

def DescriptionFault.message : DescriptionFault → String
  | .unsupported name kind => name ++ ": unsupported node type " ++ quoted kind
  | .missingType => "missing data_type"
  | .fieldKind name => "field " ++ name ++ " is not a member"
  | .memberKind name => name ++ " is not a member"
  | .notNumber key => quoted key ++ " must be a number"
  | .badNumber key text fault =>
    quoted key ++ ": strconv.ParseUint: parsing " ++ quoted text ++ ": " ++
      match fault with
      | .notDecimal => "invalid syntax"
      | .tooLarge => "value out of range"
  | .notTexts key => quoted key ++ " must be an array of strings"
  | .unknownResource kind => "unsupported kind " ++ quoted kind
  | .inside label name fault => label ++ " " ++ name ++ ": " ++ fault.message

/-- Why a text does not describe a program. -/
inductive DescriptionError where
  | text (fault : JsonFault)
  | node (fault : DescriptionFault)
  | notObject
  | notScope
  deriving Repr, DecidableEq

def DescriptionError.message : DescriptionError → String
  | .text fault => "json: " ++ fault.message
  | .node fault => "json: " ++ fault.message
  | .notObject => "json: program description must be an object"
  | .notScope => "json: root must have type \"scope\""

/-- The count under a key, zero if there is none. -/
def countOf (fields : List (String × Json)) (key : String) : Except DescriptionFault UInt32 :=
  match Json.get? fields key with
  | none => .ok 0
  | some (.number text) =>
    match readCount text with
    | .ok n => .ok n
    | .error fault => .error (.badNumber key text fault)
  | some _ => .error (.notNumber key)

def allTexts? : List Json → Option (List String)
  | [] => some []
  | .string text :: rest => (allTexts? rest).map (text :: ·)
  | _ => none

/-- The texts under a key, none if it is missing. -/
def textsOf (fields : List (String × Json)) (key : String) :
    Except DescriptionFault (List String) :=
  match Json.get? fields key with
  | none => .ok []
  | some (.array elements) =>
    match allTexts? elements with
    | some texts => .ok texts
    | none => .error (.notTexts key)
  | some _ => .error (.notTexts key)

def within {m : Type → Type} [MonadExceptOf DescriptionFault m] {α : Type} (label name : String)
    (x : m α) : m α :=
  tryCatchThe DescriptionFault x fun fault => throwThe DescriptionFault (.inside label name fault)

def allMembers (fault : String → DescriptionFault) :
    List Node → Except DescriptionFault (List Member)
  | [] => .ok []
  | .member decl :: rest => do
    let more ← allMembers fault rest
    return decl :: more
  | node :: _ => .error (fault node.name)

/-- The type of a member of the given kind: stage inputs, stage outputs and push constants are
instances of the mark for their kind. -/
def markedType (kind type : String) : String :=
  match kind with
  | "in" => "In<" ++ type ++ ">"
  | "out" => "Out<" ++ type ++ ">"
  | "push_constant" => "PushConstant<" ++ type ++ ">"
  | _ => type

/-- A member of a kind, which its type is marked with. -/
def memberOf (kind name : String) (fields : List (String × Json)) :
    Except DescriptionFault Node :=
  within kind name do
    let type := Json.textOf fields "data_type"
    if type = "" then .error .missingType
    else
      let count ← countOf fields "count"
      let interpolation := Json.textOf fields "interpolation"
      let annotations := if interpolation = "" then [] else [interpolation]
      return .member ⟨name, markedType kind type, count, annotations⟩

/-- The function that an object describes. Its body is one piece of code. -/
def functionOf (name : String) (fields : List (String × Json)) : Except DescriptionFault Node :=
  within "function" name do
    let stage := Json.textOf fields "stage"
    let annotations := if stage = "" then [] else [stage]
    let returns := Json.textOf fields "return_type"
    let code := Json.textOf fields "code"
    if code = "" then return .function name [] returns [] annotations
    else
      let inputs ← textsOf fields "inputs"
      let outputs ← textsOf fields "outputs"
      return .function name [] returns [.fragment ⟨code, inputs, outputs⟩] annotations

/-- A step of the loader, which puts the structs that it reads into a table. -/
abbrev Loading := StateT TypeTable (Except DescriptionFault)

/-- The resource of a binding, by the name of its kind. -/
def resourceOf (kind format : String) (members : Loading (List Node)) : Loading Resource :=
  match kind with
  | "buffer" => do
    let nodes ← members
    let decls ← allMembers .memberKind nodes
    return .buffer decls
  | "image" => return .image format
  | "combined_image_sampler" => return .combinedImageSampler format
  | _ => throw (.unknownResource kind)

def bindingOf (name : String) (fields : List (String × Json))
    (members : Loading (List Node)) : Loading Node :=
  within "binding" name do
    let set ← countOf fields "set"
    let slot ← countOf fields "binding"
    let count ← countOf fields "count"
    let resource ← resourceOf (Json.textOf fields "kind") (Json.textOf fields "format") members
    return .binding ⟨name, some resource, set, slot, Json.flagOf fields "read",
      Json.flagOf fields "write", count⟩

mutual

/-- The node that a JSON object describes. -/
def nodeOf (name : String) (fields : List (String × Json)) : Loading Node :=
  match Json.textOf fields "type" with
  | "scope" =>
    within "scope" name do
      let children ← nodesOf fields
      return .scope name children
  | "struct" =>
    within "struct" name do
      let children ← nodesOf fields
      let members ← allMembers .fieldKind children
      let decl : Struct := ⟨name, members, []⟩
      modify (·.insert decl)
      return .struct decl
  | "member" => memberOf "member" name fields
  | "in" => memberOf "in" name fields
  | "out" => memberOf "out" name fields
  | "push_constant" => memberOf "push_constant" name fields
  | "function" => functionOf name fields
  | "binding" => bindingOf name fields (nodesOf fields)
  | "specialization" => return .specialization name (Json.textOf fields "data_type")
  | "literal" => return .literal name (Json.textOf fields "value")
  | kind => throw (.unsupported name kind)
termination_by (sizeOf fields, 1)

/-- The fields that are objects describe nodes, the others are attributes. -/
def nodesOf (fields : List (String × Json)) : Loading (List Node) :=
  match fields with
  | [] => return []
  | (key, .object inner) :: rest => do
    let node ← nodeOf key inner
    let more ← nodesOf rest
    return node :: more
  | _ :: rest => nodesOf rest
termination_by (sizeOf fields, 0)

end

/-- The program that a text describes, and the table of its structs. -/
def describeTyped (text : String) : Except DescriptionError (Scope × TypeTable) :=
  match Json.read text with
  | .error fault => .error (.text fault)
  | .ok (.object fields) =>
    match nodeOf rootName fields .empty with
    | .error fault => .error (.node fault)
    | .ok (.scope name children, table) => .ok (⟨name, children⟩, table)
    | .ok _ => .error .notScope
  | .ok _ => .error .notObject

def describe (text : String) : Except DescriptionError Scope := (describeTyped text).map Prod.fst

end Shader.Program
