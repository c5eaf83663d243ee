import Shader.Json.Value
import Shader.Program.Node

/-!
# Outlines

An outline shows a program tree as a JSON value for inspection: the kind of each node, those of its
attributes that are set, and its parts.
-/

namespace Shader.Program

def textField (key text : String) : List (String × Json) :=
  if text = "" then [] else [(key, .string text)]

def countField (key : String) (n : UInt32) : List (String × Json) :=
  if n = 0 then [] else [(key, .number n.toNat.repr)]

def flagField (key : String) (b : Bool) : List (String × Json) :=
  if b then [(key, .bool true)] else []

def textsField (key : String) (texts : List String) : List (String × Json) :=
  if texts.isEmpty then [] else [(key, .array (texts.map .string))]

def partsField (key : String) (parts : List Json) : List (String × Json) :=
  if parts.isEmpty then [] else [(key, .array parts)]

def outlineOf (kind : String) (fields : List (String × Json)) : Json :=
  .object (("kind", .string kind) :: fields)

def Member.outline (m : Member) : Json :=
  outlineOf "member" (textField "name" m.name ++ textField "type" m.type ++
    countField "count" m.count ++ textsField "annotations" m.annotations)

def Parameter.outline (p : Parameter) : Json :=
  outlineOf "parameter" (textField "name" p.name ++ textField "type" p.type)

def resourceKind : Option Resource → String
  | some (.buffer _) => "buffer"
  | some (.image _) => "image"
  | some (.combinedImageSampler _) => "combined_image_sampler"
  | none => ""

def resourceFormat : Option Resource → String
  | some (.image format) => format
  | some (.combinedImageSampler format) => format
  | _ => ""

def resourceMembers : Option Resource → List Member
  | some (.buffer members) => members
  | _ => []

def Binding.outline (b : Binding) : Json :=
  outlineOf "binding" (textField "name" b.name ++ textField "type" (resourceKind b.resource) ++
    countField "count" b.count ++ textField "value" (resourceFormat b.resource) ++
    [("set", .number b.set.toNat.repr), ("binding", .number b.slot.toNat.repr)] ++
    flagField "read" b.read ++ flagField "write" b.write ++
    partsField "children" ((resourceMembers b.resource).map Member.outline))

mutual

def Node.outline : Node → Json
  | .scope name children =>
    outlineOf "scope" (textField "name" name ++ partsField "children" (outlines children))
  | .struct decl =>
    outlineOf "struct" (textField "name" decl.name ++ textsField "annotations" decl.annotations ++
      partsField "children" (decl.fields.map Member.outline))
  | .member decl => decl.outline
  | .function name params returns statements annotations =>
    outlineOf "function" (textField "name" name ++ textField "type" returns ++
      textsField "annotations" annotations ++
      partsField "params" (params.map Parameter.outline) ++
      partsField "children" (outlines statements))
  | .parameter decl => decl.outline
  | .binding decl => decl.outline
  | .specialization name type =>
    outlineOf "specialization" (textField "name" name ++ textField "type" type)
  | .pushConstant members =>
    outlineOf "push_constant" (partsField "children" (members.map Member.outline))
  | .fragment decl =>
    outlineOf "fragment" (textField "value" decl.code ++ textsField "inputs" decl.inputs ++
      textsField "outputs" decl.outputs)
  | .intrinsic name params body returns =>
    outlineOf "intrinsic" (textField "name" name ++ textField "type" returns ++
      partsField "params" (params.map Parameter.outline) ++
      partsField "children" (outlines body))
  | .literal name body =>
    outlineOf "literal" (textField "name" name ++ textField "value" body)
  | .placeholder => outlineOf "null" []
  | .sequence elements => outlineOf "sentence" (partsField "children" (outlines elements))
  | .access left right =>
    outlineOf "accessor" [("children", .array [left.outline, right.outline])]
  | .ident name => outlineOf "member_expr" (textField "name" name)
  | .constant text => outlineOf "literal_expr" (textField "value" text)
  | .call callee args =>
    outlineOf "call" (textField "name" callee ++ partsField "children" (outlines args))
  | .binary symbol left right =>
    outlineOf "operator" (textField "value" symbol ++
      [("children", .array [left.outline, right.outline])])
  | .localVar name type =>
    outlineOf "var_decl" (textField "name" name ++ textField "type" type)
  | .marker name body => outlineOf "macro" (textField "name" name ++ textField "value" body)
  | .ret none => outlineOf "return" []
  | .ret (some value) => outlineOf "return" [("children", .array [value.outline])]
  | .missing => outlineOf "null" []

def outlines : List Node → List Json
  | [] => []
  | node :: rest => node.outline :: outlines rest

end

def Node.outlineText (node : Node) : String := node.outline.pretty

end Shader.Program
