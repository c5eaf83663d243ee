import Mathlib.Data.List.Nodup
import Shader.Program.Description
import Shader.Proofs.Grammar.Word
import Shader.Proofs.Json.Spelling

/-!
# Descriptions of programs

A program of the declarations that a description can express, and the JSON objects that describe
it. An object has the attributes of its declaration first, in any order, and then one object for
each declaration inside it. An attribute may be left out where an absent one means the same, unless
a declaration inside goes by the name of the attribute.
-/

namespace Shader

namespace Text

/-! ## Counts -/

theorem le_ofDigitChars (digits : List Char) (value : Nat) :
    value ≤ Nat.ofDigitChars 10 digits value := by
  induction digits generalizing value with
  | nil => simp
  | cons c rest ih =>
    rw [Nat.ofDigitChars_cons]
    exact Nat.le_trans (by omega) (ih _)

theorem readCountFrom_digits {digits : List Char} (hd : ∀ c ∈ digits, c.isDigit = true)
    {value : Nat} (hlt : Nat.ofDigitChars 10 digits value < wordLimit) :
    readCountFrom value digits = .ok (Nat.ofDigitChars 10 digits value) := by
  induction digits generalizing value with
  | nil => rw [readCountFrom, Nat.ofDigitChars_nil]
  | cons c rest ih =>
    have hdigit : isAsciiDigit c = true := hd c (.head _)
    rw [Nat.ofDigitChars_cons, Nat.mul_comm] at hlt ⊢
    have hnext := Nat.lt_of_le_of_lt (le_ofDigitChars rest _) hlt
    rw [readCountFrom, if_pos hdigit, if_pos hnext]
    exact ih (fun x hx => hd x (.tail _ hx)) hlt

theorem readCount_repr (count : UInt32) : readCount count.toNat.repr = .ok count := by
  have hdigits : ∀ c ∈ count.toNat.repr.toList, c.isDigit = true := by
    intro c hc
    rw [Nat.toList_repr] at hc
    exact Nat.isDigit_of_mem_toDigits (by decide) (by decide) hc
  have hvalue : Nat.ofDigitChars 10 count.toNat.repr.toList 0 = count.toNat := by
    rw [Nat.toList_repr, Nat.ofDigitChars_ten_toDigits]
  have hread := readCountFrom_digits hdigits (hvalue.symm ▸ count.toNat_lt)
  rw [hvalue] at hread
  have hne : count.toNat.repr.isEmpty = false := by simp
  rw [readCount, hne, if_neg Bool.false_ne_true, hread]
  simp [Except.map]

end Text

namespace Program

open Text

variable {count : UInt32} {format returns text : String} {code : Fragment} {b : Binding}
  {members : List Member} {children : List Node}

/-! ## Declarations that can be described -/

/-- At most one annotation, which is not empty. -/
def IsTagged (annotations : List String) : Prop :=
  ∃ tag, annotations = if tag = "" then [] else [tag]

/-- A member with a type. -/
structure Member.IsDescribed (m : Member) : Prop where
  type : m.type ≠ ""
  tagged : IsTagged m.annotations

mutual

/-- The declaration can be described. -/
def Node.IsDescribed : Node → Prop
  | .scope _ children => AllDescribed children
  | .struct decl => (∀ m ∈ decl.fields, m.IsDescribed) ∧ decl.annotations = []
  | .member decl => decl.IsDescribed
  | .function _ params _ statements annotations =>
    params = [] ∧ IsTagged annotations ∧
      (statements = [] ∨ ∃ code, statements = [.fragment code] ∧ code.code ≠ "")
  | .binding decl =>
    match decl.resource with
    | some (.buffer members) => ∀ m ∈ members, m.IsDescribed
    | some _ => True
    | none => False
  | .specialization .. => True
  | .literal .. => True
  | _ => False

/-- Every declaration can be described. -/
def AllDescribed : List Node → Prop
  | [] => True
  | node :: rest => node.IsDescribed ∧ AllDescribed rest

end

/-! ## Objects that describe them -/

/-- The values that an absent attribute stands for. -/
inductive IsDefault : Json → Prop where
  | text : IsDefault (.string "")
  | flag : IsDefault (.bool false)
  | count : IsDefault (.number "0")
  | texts : IsDefault (.array [])

/-- The fields are some of the attributes, and then the children. What is not written is not needed:
it has the value of an absent attribute, and no child goes by its name. -/
def Attributes (attributes fields children : List (String × Json)) : Prop :=
  ∃ written, fields = written ++ children ∧ written ⊆ attributes ∧
    ∀ a ∈ attributes, a ∈ written ∨ IsDefault a.2 ∧ a.1 ∉ children.map Prod.fst

def countValue (n : UInt32) : Json := .number n.toNat.repr

def textsValue (texts : List String) : Json := .array (texts.map .string)

/-- How a member is described: its kind, and its type without the mark of that kind. -/
inductive IsMarked : String → String → String → Prop where
  | member (type : String) : IsMarked "member" type type
  | input (type : String) : IsMarked "in" type ("In<" ++ type ++ ">")
  | output (type : String) : IsMarked "out" type ("Out<" ++ type ++ ">")
  | pushConstant (type : String) : IsMarked "push_constant" type ("PushConstant<" ++ type ++ ">")

def memberAttributes (kind type tag : String) (count : UInt32) : List (String × Json) :=
  [("type", .string kind), ("data_type", .string type), ("count", countValue count),
   ("interpolation", .string tag)]

def functionAttributes (returns tag : String) (code : Fragment) : List (String × Json) :=
  [("type", .string "function"), ("return_type", .string returns), ("stage", .string tag),
   ("code", .string code.code), ("inputs", textsValue code.inputs),
   ("outputs", textsValue code.outputs)]

def bindingAttributes (kind format : String) (b : Binding) : List (String × Json) :=
  [("type", .string "binding"), ("kind", .string kind), ("format", .string format),
   ("set", countValue b.set), ("binding", countValue b.slot), ("count", countValue b.count),
   ("read", .bool b.read), ("write", .bool b.write)]

mutual

/-- The fields of an object that describes a declaration. -/
inductive Renders : Node → List (String × Json) → Prop where
  | scope {name children inner fields} (hchildren : RendersAll children inner)
      (hfields : Attributes [("type", .string "scope")] fields inner) :
      Renders (.scope name children) fields
  | struct {name members inner fields} (hmembers : RendersAll (members.map .member) inner)
      (hfields : Attributes [("type", .string "struct")] fields inner) :
      Renders (.struct ⟨name, members, []⟩) fields
  | member {name kind plain type tag count fields} (hmark : IsMarked kind plain type)
      (hplain : plain ≠ "")
      (hfields : Attributes (memberAttributes kind plain tag count) fields []) :
      Renders (.member ⟨name, type, count, if tag = "" then [] else [tag]⟩) fields
  | declared {name returns tag fields}
      (hfields : Attributes (functionAttributes returns tag ⟨"", [], []⟩) fields []) :
      Renders (.function name [] returns [] (if tag = "" then [] else [tag])) fields
  | function {name returns tag code fields} (hcode : code.code ≠ "")
      (hfields : Attributes (functionAttributes returns tag code) fields []) :
      Renders (.function name [] returns [.fragment code] (if tag = "" then [] else [tag])) fields
  | buffer {b : Binding} {members inner fields} (hmembers : RendersAll (members.map .member) inner)
      (hfields : Attributes (bindingAttributes "buffer" "" b) fields inner) :
      Renders (.binding { b with resource := some (.buffer members) }) fields
  | image {b : Binding} {format fields}
      (hfields : Attributes (bindingAttributes "image" format b) fields []) :
      Renders (.binding { b with resource := some (.image format) }) fields
  | sampler {b : Binding} {format fields}
      (hfields : Attributes (bindingAttributes "combined_image_sampler" format b) fields []) :
      Renders (.binding { b with resource := some (.combinedImageSampler format) }) fields
  | specialization {name type fields}
      (hfields : Attributes [("type", .string "specialization"), ("data_type", .string type)]
        fields []) :
      Renders (.specialization name type) fields
  | literal {name body fields}
      (hfields : Attributes [("type", .string "literal"), ("value", .string body)] fields []) :
      Renders (.literal name body) fields

/-- Fields that describe one declaration each, under its name. -/
inductive RendersAll : List Node → List (String × Json) → Prop where
  | nil : RendersAll [] []
  | cons {node inner nodes fields} (hnode : Renders node inner) (hnodes : RendersAll nodes fields) :
      RendersAll (node :: nodes) ((node.name, .object inner) :: fields)

end

/-! ## Reading attributes -/

variable {kind name plain tag type : String} {fields : List (String × Json)} {node : Node}

/-- The field has the value, or is absent where the value means the same. -/
def Gives (fields : List (String × Json)) (key : String) (value : Json) : Prop :=
  Json.get? fields key = some value ∨ IsDefault value ∧ Json.get? fields key = none

section Attributes

variable {attributes fields children : List (String × Json)} {key : String} {value : Json}

/-- What is read under the key of an attribute is that attribute, whatever the children are
named. -/
theorem Attributes.gives (h : Attributes attributes fields children)
    (hkeys : (attributes.map Prod.fst).Nodup) (hmem : (key, value) ∈ attributes) :
    Gives fields key value := by
  obtain ⟨written, rfl, hknown, hcomplete⟩ := h
  unfold Gives Json.get?
  rw [List.find?_append]
  cases hfind : written.find? (·.1 = key) with
  | some a =>
    left
    have hkey : a.1 = key := by simpa using List.find?_some hfind
    have ha : a ∈ attributes := hknown (List.mem_of_find?_eq_some hfind)
    have heq : a = (key, value) := List.inj_on_of_nodup_map hkeys ha hmem hkey
    rw [heq]
    rfl
  | none =>
    right
    have hwritten : (key, value) ∉ written := by
      intro hin
      simpa using List.find?_eq_none.mp hfind _ hin
    obtain ⟨hdefault, hnamed⟩ := (hcomplete _ hmem).resolve_left hwritten
    have hnone : children.find? (·.1 = key) = none := by
      rw [List.find?_eq_none]
      intro child hchild
      simp only [decide_eq_true_eq]
      rintro rfl
      exact hnamed (List.mem_map.mpr ⟨child, hchild, rfl⟩)
    rw [hnone]
    exact ⟨hdefault, rfl⟩

theorem Attributes.textOf {text : String} (h : Attributes attributes fields children)
    (hkeys : (attributes.map Prod.fst).Nodup) (hmem : (key, .string text) ∈ attributes) :
    Json.textOf fields key = text := by
  unfold Json.textOf
  rcases h.gives hkeys hmem with h | ⟨hdefault, h⟩
  · rw [h]
  · rw [h]
    cases hdefault
    rfl

theorem Attributes.flagOf {b : Bool} (h : Attributes attributes fields children)
    (hkeys : (attributes.map Prod.fst).Nodup) (hmem : (key, .bool b) ∈ attributes) :
    Json.flagOf fields key = b := by
  unfold Json.flagOf
  rcases h.gives hkeys hmem with h | ⟨hdefault, h⟩
  · rw [h]
  · rw [h]
    cases hdefault
    rfl

theorem Attributes.countOf {n : UInt32} (h : Attributes attributes fields children)
    (hkeys : (attributes.map Prod.fst).Nodup) (hmem : (key, countValue n) ∈ attributes) :
    countOf fields key = .ok n := by
  have hread := readCount_repr n
  unfold Program.countOf
  rcases h.gives hkeys hmem with h | ⟨hdefault, h⟩
  · rw [h, countValue]
    dsimp only
    rw [hread]
  · rw [h]
    generalize htext : n.toNat.repr = text at hread
    rw [countValue, htext] at hdefault
    cases hdefault
    have hzero : readCount "0" = .ok 0 := by decide
    cases hread.symm.trans hzero
    rfl

theorem allTexts?_map (texts : List String) : allTexts? (texts.map .string) = some texts := by
  induction texts with
  | nil => rfl
  | cons text texts ih => rw [List.map_cons, allTexts?, ih, Option.map_some]

theorem Attributes.textsOf {texts : List String} (h : Attributes attributes fields children)
    (hkeys : (attributes.map Prod.fst).Nodup) (hmem : (key, textsValue texts) ∈ attributes) :
    textsOf fields key = .ok texts := by
  unfold Program.textsOf
  rcases h.gives hkeys hmem with h | ⟨hdefault, h⟩
  · rw [h, textsValue]
    dsimp only
    rw [allTexts?_map]
  · rw [h]
    cases texts with
    | nil => rfl
    | cons text texts => cases hdefault

/-- No value is an object. -/
def ArePlain (attributes : List (String × Json)) : Prop :=
  ∀ a ∈ attributes, ∀ inner, a.2 ≠ .object inner

theorem Attributes.nodesOf (h : Attributes attributes fields children)
    (hplain : ArePlain attributes) : nodesOf fields = nodesOf children := by
  obtain ⟨written, rfl, hknown, -⟩ := h
  induction written with
  | nil => rfl
  | cons a written ih =>
    rw [List.cons_append, Program.nodesOf]
    · exact ih fun b hb => hknown (.tail _ hb)
    · intro key inner ha
      exact hplain a (hknown (.head _)) inner (by rw [ha])

end Attributes

/-! ## Reading objects -/

section Objects

variable (name : String) {fields inner : List (String × Json)}

theorem allMembers_map (fault : String → DescriptionFault) (members : List Member) :
    allMembers fault (members.map .member) = .ok members := by
  induction members with
  | nil => rfl
  | cons m members ih =>
    rw [List.map_cons, allMembers, ih]
    rfl

theorem nodeOf_member (hmark : IsMarked kind plain type) (hplain : plain ≠ "")
    (hfields : Attributes (memberAttributes kind plain tag count) fields []) :
    nodeOf name fields =
      pure (.member ⟨name, type, count, if tag = "" then [] else [tag]⟩) := by
  have hkeys : ((memberAttributes kind plain tag count).map Prod.fst).Nodup := by
    simp [memberAttributes]
  have hread : Json.textOf fields "type" = kind := hfields.textOf hkeys (by simp [memberAttributes])
  have hdata : Json.textOf fields "data_type" = plain :=
    hfields.textOf hkeys (by simp [memberAttributes])
  have hcount : countOf fields "count" = .ok count :=
    hfields.countOf hkeys (by simp [memberAttributes])
  have htag : Json.textOf fields "interpolation" = tag :=
    hfields.textOf hkeys (by simp [memberAttributes])
  have hmember : memberOf kind name fields =
      .ok (.member ⟨name, markedType kind plain, count, if tag = "" then [] else [tag]⟩) := by
    unfold memberOf
    rw [hdata, hcount, htag, if_neg hplain]
    rfl
  rw [nodeOf, hread]
  cases hmark with
  | member | input | output | pushConstant =>
    dsimp only
    rw [hmember]
    rfl

theorem nodeOf_function (hfields : Attributes (functionAttributes returns tag code) fields []) :
    nodeOf name fields = pure (.function name [] returns
      (if code.code = "" then [] else [.fragment code]) (if tag = "" then [] else [tag])) := by
  have hkeys : ((functionAttributes returns tag code).map Prod.fst).Nodup := by
    simp [functionAttributes]
  have hread : Json.textOf fields "type" = "function" :=
    hfields.textOf hkeys (by simp [functionAttributes])
  have hreturns : Json.textOf fields "return_type" = returns :=
    hfields.textOf hkeys (by simp [functionAttributes])
  have htag : Json.textOf fields "stage" = tag :=
    hfields.textOf hkeys (by simp [functionAttributes])
  have hcode : Json.textOf fields "code" = code.code :=
    hfields.textOf hkeys (by simp [functionAttributes])
  have hinputs : textsOf fields "inputs" = .ok code.inputs :=
    hfields.textsOf hkeys (by simp [functionAttributes])
  have houtputs : textsOf fields "outputs" = .ok code.outputs :=
    hfields.textsOf hkeys (by simp [functionAttributes])
  rw [nodeOf, hread]
  simp only [functionOf, hreturns, htag, hcode, hinputs, houtputs]
  by_cases hempty : code.code = ""
  · rw [if_pos hempty, if_pos hempty]
    rfl
  · rw [if_neg hempty, if_neg hempty]
    rfl

theorem nodeOf_binding {resource : Resource}
    (hfields : Attributes (bindingAttributes kind format b) fields inner)
    (hresource : resourceOf kind format (nodesOf inner) = pure resource) :
    nodeOf name fields = pure (.binding ⟨name, some resource, b.set, b.slot, b.read, b.write,
      b.count⟩) := by
  have hkeys : ((bindingAttributes kind format b).map Prod.fst).Nodup := by
    simp [bindingAttributes]
  have hplain : ArePlain (bindingAttributes kind format b) := by
    simp [ArePlain, bindingAttributes, countValue]
  have hread : Json.textOf fields "type" = "binding" :=
    hfields.textOf hkeys (by simp [bindingAttributes])
  have hkind : Json.textOf fields "kind" = kind :=
    hfields.textOf hkeys (by simp [bindingAttributes])
  have hformat : Json.textOf fields "format" = format :=
    hfields.textOf hkeys (by simp [bindingAttributes])
  have hset : countOf fields "set" = .ok b.set :=
    hfields.countOf hkeys (by simp [bindingAttributes])
  have hslot : countOf fields "binding" = .ok b.slot :=
    hfields.countOf hkeys (by simp [bindingAttributes])
  have hcount : countOf fields "count" = .ok b.count :=
    hfields.countOf hkeys (by simp [bindingAttributes])
  have hreadable : Json.flagOf fields "read" = b.read :=
    hfields.flagOf hkeys (by simp [bindingAttributes])
  have hwritable : Json.flagOf fields "write" = b.write :=
    hfields.flagOf hkeys (by simp [bindingAttributes])
  rw [nodeOf, hread]
  simp only [bindingOf, hkind, hformat, hset, hslot, hcount, hreadable, hwritable,
    hfields.nodesOf hplain, hresource]
  rfl

end Objects

/-- The step that gives the value and puts the structs into the table. -/
def loads {α : Type} (a : α) (structs : List Struct) : Loading α :=
  fun table => .ok (a, structs.foldl TypeTable.insert table)

theorem loads_members {α : Type} (a : α) (members : List Member) :
    loads a (structsOfAll (members.map .member)) = pure a := by
  induction members with
  | nil => rfl
  | cons m members ih => exact ih

mutual

/-- An object that describes a declaration is read as that declaration, and its structs are put into
the table. -/
theorem nodeOf_of_renders {node : Node} {fields : List (String × Json)} (h : Renders node fields) :
    nodeOf node.name fields = loads node node.structs := by
  match h with
  | .scope hchildren hfields =>
    have hnodes := nodesOf_of_rendersAll hchildren
    rw [nodeOf, hfields.textOf (by simp) (List.mem_singleton.mpr rfl)]
    simp only [hfields.nodesOf (by simp [ArePlain]), hnodes]
    rfl
  | .struct hmembers hfields =>
    have hnodes := nodesOf_of_rendersAll hmembers
    rw [nodeOf, hfields.textOf (by simp) (List.mem_singleton.mpr rfl)]
    rw [loads_members] at hnodes
    simp only [hfields.nodesOf (by simp [ArePlain]), hnodes, pure_bind, allMembers_map]
    rfl
  | .member hmark hplain hfields => exact nodeOf_member _ hmark hplain hfields
  | .declared hfields => exact nodeOf_function _ hfields
  | @Renders.function name _ _ _ _ hcode hfields =>
    have hread := nodeOf_function name hfields
    rw [if_neg hcode] at hread
    exact hread
  | .buffer hmembers hfields =>
    refine nodeOf_binding _ hfields ?_
    rw [nodesOf_of_rendersAll hmembers, loads_members]
    simp only [resourceOf, pure_bind, allMembers_map]
    rfl
  | .image hfields => exact nodeOf_binding _ hfields rfl
  | .sampler hfields => exact nodeOf_binding _ hfields rfl
  | @Renders.specialization name type _ hfields =>
    have hread : Json.textOf fields "type" = "specialization" := hfields.textOf (by simp) (by simp)
    have htype : Json.textOf fields "data_type" = type := hfields.textOf (by simp) (by simp)
    rw [nodeOf, hread]
    simp only [htype]
    rfl
  | @Renders.literal name body _ hfields =>
    have hread : Json.textOf fields "type" = "literal" := hfields.textOf (by simp) (by simp)
    have hbody : Json.textOf fields "value" = body := hfields.textOf (by simp) (by simp)
    rw [nodeOf, hread]
    simp only [hbody]
    rfl

theorem nodesOf_of_rendersAll {nodes : List Node} {fields : List (String × Json)}
    (h : RendersAll nodes fields) : nodesOf fields = loads nodes (structsOfAll nodes) := by
  match h with
  | .nil => rw [nodesOf]; rfl
  | .cons hnode hnodes =>
    rw [nodesOf, nodeOf_of_renders hnode, nodesOf_of_rendersAll hnodes, structsOfAll]
    funext table
    rw [loads, List.foldl_append]
    rfl

end

/-! ## Texts -/

theorem isNumberText_repr (n : Nat) : JsonToken.isNumberText n.repr = true := by
  have hdigit : ∀ c ∈ n.repr.toList, ('0' ≤ c && c ≤ '9') = true := by
    intro c hc
    rw [Nat.toList_repr] at hc
    exact Nat.isDigit_of_mem_toDigits (by decide) (by decide) hc
  unfold JsonToken.isNumberText
  split
  · next hnil => simp at hnil
  · next c rest hchars =>
    rw [hchars] at hdigit
    simp only [Bool.and_eq_true, List.all_eq_true]
    refine ⟨?_, fun d hd => ?_⟩
    · rw [JsonToken.startsNumber, hdigit c (.head _), Bool.or_true]
    · rw [JsonToken.isNumberChar, hdigit d (.tail _ hd)]
      rfl

theorem Attributes.legal {attributes children : List (String × Json)}
    (h : Attributes attributes fields children) (hlegal : ∀ a ∈ attributes, a.2.IsLegal)
    (hchildren : Json.FieldsLegal children) : Json.FieldsLegal fields := by
  obtain ⟨written, rfl, hknown, -⟩ := h
  induction written with
  | nil => exact hchildren
  | cons a written ih =>
    exact ⟨hlegal a (hknown (.head _)), ih fun b hb => hknown (.tail _ hb)⟩

theorem isLegal_countValue (n : UInt32) : (countValue n).IsLegal := isNumberText_repr n.toNat

theorem isLegal_textsValue (texts : List String) : (textsValue texts).IsLegal := by
  show Json.AllLegal (texts.map .string)
  induction texts with
  | nil => trivial
  | cons text texts ih => exact ⟨trivial, ih⟩

theorem isLegal_of_mem_member : ∀ a ∈ memberAttributes kind type tag count, a.2.IsLegal := by
  simp [memberAttributes, isLegal_countValue, Json.IsLegal]

theorem isLegal_of_mem_function : ∀ a ∈ functionAttributes returns tag code, a.2.IsLegal := by
  simp [functionAttributes, isLegal_textsValue, Json.IsLegal]

theorem isLegal_of_mem_binding : ∀ a ∈ bindingAttributes kind format b, a.2.IsLegal := by
  simp [bindingAttributes, isLegal_countValue, Json.IsLegal]

mutual

theorem legal_of_renders {node : Node} {fields : List (String × Json)} (h : Renders node fields) :
    Json.FieldsLegal fields := by
  match h with
  | .scope hchildren hfields =>
    exact hfields.legal (by simp [Json.IsLegal]) (legal_of_rendersAll hchildren)
  | .struct hmembers hfields =>
    exact hfields.legal (by simp [Json.IsLegal]) (legal_of_rendersAll hmembers)
  | .member _ _ hfields => exact hfields.legal isLegal_of_mem_member trivial
  | .declared hfields => exact hfields.legal isLegal_of_mem_function trivial
  | .function _ hfields => exact hfields.legal isLegal_of_mem_function trivial
  | .buffer hmembers hfields =>
    exact hfields.legal isLegal_of_mem_binding (legal_of_rendersAll hmembers)
  | .image hfields => exact hfields.legal isLegal_of_mem_binding trivial
  | .sampler hfields => exact hfields.legal isLegal_of_mem_binding trivial
  | .specialization hfields => exact hfields.legal (by simp [Json.IsLegal]) trivial
  | .literal hfields => exact hfields.legal (by simp [Json.IsLegal]) trivial

theorem legal_of_rendersAll {nodes : List Node} {fields : List (String × Json)}
    (h : RendersAll nodes fields) : Json.FieldsLegal fields := by
  match h with
  | .nil => trivial
  | .cons hnode hnodes => exact ⟨legal_of_renders hnode, legal_of_rendersAll hnodes⟩

end

/-! ## Every declaration that can be described is described -/

theorem attributes_all (attributes children : List (String × Json)) :
    Attributes attributes (attributes ++ children) children :=
  ⟨attributes, rfl, List.Subset.refl _, fun _ ha => Or.inl ha⟩

theorem Member.IsDescribed.renders {m : Member} (h : m.IsDescribed) :
    ∃ fields, Renders (.member m) fields := by
  obtain ⟨name, type, count, annotations⟩ := m
  obtain ⟨htype, tag, rfl⟩ := h
  exact ⟨_, .member (.member type) htype (attributes_all _ [])⟩

theorem exists_rendersAll_members (h : ∀ m ∈ members, m.IsDescribed) :
    ∃ fields, RendersAll (members.map .member) fields := by
  induction members with
  | nil => exact ⟨[], .nil⟩
  | cons m members ih =>
    obtain ⟨inner, hm⟩ := (h m (.head _)).renders
    obtain ⟨fields, hmembers⟩ := ih fun m' hm' => h m' (.tail _ hm')
    exact ⟨_, .cons hm hmembers⟩

mutual

theorem exists_renders (node : Node) (h : node.IsDescribed) : ∃ fields, Renders node fields := by
  match node with
  | .scope name children =>
    obtain ⟨inner, hchildren⟩ := exists_rendersAll children h
    exact ⟨_, .scope hchildren (attributes_all _ inner)⟩
  | .struct ⟨name, members, annotations⟩ =>
    obtain ⟨hmembers, rfl⟩ := h
    obtain ⟨inner, hmembers⟩ := exists_rendersAll_members hmembers
    exact ⟨_, .struct hmembers (attributes_all _ inner)⟩
  | .member m => exact h.renders
  | .function name params returns statements annotations =>
    obtain ⟨rfl, ⟨tag, rfl⟩, rfl | ⟨code, rfl, hcode⟩⟩ := h
    · exact ⟨_, .declared (attributes_all _ [])⟩
    · exact ⟨_, .function hcode (attributes_all _ [])⟩
  | .binding ⟨name, some (.buffer members), set, slot, read, write, count⟩ =>
    obtain ⟨inner, hmembers⟩ := exists_rendersAll_members h
    have hfields := attributes_all
      (bindingAttributes "buffer" "" ⟨name, none, set, slot, read, write, count⟩) inner
    exact ⟨_, .buffer hmembers hfields⟩
  | .binding ⟨name, some (.image format), set, slot, read, write, count⟩ =>
    have hfields := attributes_all
      (bindingAttributes "image" format ⟨name, none, set, slot, read, write, count⟩) []
    exact ⟨_, .image hfields⟩
  | .binding ⟨name, some (.combinedImageSampler format), set, slot, read, write, count⟩ =>
    have hfields := attributes_all (bindingAttributes "combined_image_sampler" format
      ⟨name, none, set, slot, read, write, count⟩) []
    exact ⟨_, .sampler hfields⟩
  | .specialization name type => exact ⟨_, .specialization (attributes_all _ [])⟩
  | .literal name body => exact ⟨_, .literal (attributes_all _ [])⟩

theorem exists_rendersAll (nodes : List Node) (h : AllDescribed nodes) :
    ∃ fields, RendersAll nodes fields := by
  match nodes with
  | [] => exact ⟨[], .nil⟩
  | node :: nodes =>
    obtain ⟨inner, hnode⟩ := exists_renders node h.1
    obtain ⟨fields, hnodes⟩ := exists_rendersAll nodes h.2
    exact ⟨_, .cons hnode hnodes⟩

end

/-! ## Programs -/

theorem describeTyped_of_spells (hfields : Renders (.scope rootName children) fields)
    (htext : Json.Spells text (.object fields)) :
    describeTyped text = .ok (.root children, (Scope.root children).table) := by
  have hnode : nodeOf rootName fields = _ := nodeOf_of_renders hfields
  rw [describeTyped, Json.read_of_spells htext]
  simp only [hnode, loads, TypeTable.foldl_insert]
  rfl

theorem exists_describe (h : AllDescribed children) :
    ∃ text, describe text = .ok (.root children) := by
  obtain ⟨fields, hfields⟩ := exists_renders (.scope rootName children) h
  refine ⟨Json.pretty (.object fields), ?_⟩
  rw [describe, describeTyped_of_spells hfields (Json.spells_pretty (legal_of_renders hfields))]
  rfl

mutual

/-- The declarations that a node stands for, in the order of the document: those of a scope, or the
node itself. -/
def Node.declarations : Node → List Node
  | .scope _ children => declarationsOfAll children
  | node => [node]

/-- The declarations of a list of nodes and the scopes inside them, in the order of the document. -/
def declarationsOfAll : List Node → List Node
  | [] => []
  | node :: rest => node.declarations ++ declarationsOfAll rest

end

def Node.struct? : Node → Option Struct
  | .struct decl => some decl
  | _ => none

mutual

theorem Node.structs_eq (node : Node) :
    node.structs = node.declarations.filterMap Node.struct? := by
  cases node with
  | scope name children => exact structsOfAll_eq children
  | _ => rfl

theorem structsOfAll_eq (nodes : List Node) :
    structsOfAll nodes = (declarationsOfAll nodes).filterMap Node.struct? := by
  cases nodes with
  | nil => rfl
  | cons node nodes =>
    rw [structsOfAll, declarationsOfAll, List.filterMap_append, ← node.structs_eq,
      ← structsOfAll_eq nodes]

end

/-- For every program that can be described there are objects that describe it, and every text of
such an object is read as the program: the same declarations in the same order. Among these texts is
the one over several lines. The table that is read with the program is its own. It holds the structs
of the program in the order of the document, and nothing else. -/
theorem describe_inverts_rendering (scope : Scope) (hname : scope.name = rootName)
    (hdescribed : AllDescribed scope.children) :
    (∃ fields, Renders (.scope scope.name scope.children) fields) ∧
    (∀ fields, Renders (.scope scope.name scope.children) fields →
      Json.Spells (Json.pretty (.object fields)) (.object fields) ∧
      ∀ text, Json.Spells text (.object fields) →
        describeTyped text = .ok (scope, scope.table)) ∧
    scope.table.structs = (declarationsOfAll scope.children).filterMap Node.struct? := by
  obtain ⟨name, children⟩ := scope
  subst hname
  refine ⟨exists_renders _ hdescribed, fun fields hfields => ⟨?_, fun text htext => ?_⟩, ?_⟩
  · exact Json.spells_pretty (legal_of_renders hfields)
  · exact describeTyped_of_spells hfields htext
  · exact structsOfAll_eq children

/-- Members of each kind. Declarations may go by the names of attributes, and a struct inside a
scope is in the table. -/
theorem describe_inverts_rendering_sample :
    let light : Struct := ⟨"type", [⟨"count", "f32", 0, []⟩, ⟨"count", "vec4f", 3, ["flat"]⟩], []⟩
    let marked : List Node := [.member ⟨"uv", "In<vec2f>", 0, []⟩,
      .member ⟨"color", "Out<vec4f>", 0, ["flat"]⟩, .member ⟨"lights", "PushConstant<f32>", 3, []⟩]
    let others : List Node := [.struct light,
      .binding ⟨"kind", some (.buffer [⟨"set", "u32", 0, []⟩]), 1, 2, true, false, 0⟩,
      .scope "größe" [.struct ⟨"data_type", [], []⟩,
        .function "main" [] "void" [.fragment ⟨"x = set;", ["kind"], []⟩] ["vertex"]],
      .literal "value" "3.14", .specialization "binding" ""]
    ∃ inner, describeTyped (Json.pretty (.object ([("type", .string "scope"),
        ("uv", .object (memberAttributes "in" "vec2f" "" 0)),
        ("color", .object (memberAttributes "out" "vec4f" "flat" 0)),
        ("lights", .object (memberAttributes "push_constant" "f32" "" 3))] ++ inner))) =
      .ok (.root (marked ++ others), ⟨[light, ⟨"data_type", [], []⟩]⟩) := by
  intro light marked others
  have hplain : IsTagged [] := ⟨"", rfl⟩
  have hothers : AllDescribed others := by
    refine ⟨⟨fun m hm => ?_, rfl⟩, fun m hm => ?_,
      ⟨⟨nofun, rfl⟩, ⟨rfl, ⟨"vertex", rfl⟩, ?_⟩, trivial⟩,
      trivial, trivial, trivial⟩
    · rcases List.mem_pair.mp hm with rfl | rfl
      · exact ⟨by decide, hplain⟩
      · exact ⟨by decide, "flat", rfl⟩
    · rw [List.mem_singleton.mp hm]
      exact ⟨by decide, hplain⟩
    · exact Or.inr ⟨_, rfl, by decide⟩
  have hdescribed : AllDescribed (marked ++ others) :=
    ⟨⟨by decide, hplain⟩, ⟨by decide, "flat", rfl⟩, ⟨by decide, hplain⟩, hothers⟩
  obtain ⟨inner, hinner⟩ := exists_rendersAll others hothers
  have huv := @Renders.member "uv" _ "vec2f" _ "" 0 _ (.input _) (by decide) (attributes_all _ [])
  have hcolor :=
    @Renders.member "color" _ "vec4f" _ "flat" 0 _ (.output _) (by decide) (attributes_all _ [])
  have hlights :=
    @Renders.member "lights" _ "f32" _ "" 3 _ (.pushConstant _) (by decide) (attributes_all _ [])
  have hmarked : RendersAll (marked ++ others) _ := .cons huv (.cons hcolor (.cons hlights hinner))
  obtain ⟨-, hread, -⟩ := describe_inverts_rendering (.root (marked ++ others)) rfl hdescribed
  obtain ⟨hspells, hdescribe⟩ := hread _ (.scope hmarked (attributes_all _ _))
  exact ⟨inner, hdescribe _ hspells⟩

end Program

end Shader
