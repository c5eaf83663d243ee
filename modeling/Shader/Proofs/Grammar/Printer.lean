import Shader.Program.TypeName
import Shader.Proofs.Grammar.Word

/-!
# The printer of programs

A program tree is written back as a list of tokens. Not every tree can be written: `IsProgram`
describes those that can, and `normalize` is what reading and writing does to a list of tokens.
-/

namespace Shader.Program

open Text

/-! ## Tokens of types and expressions -/

def typeTokens (type : String) : List String :=
  match TypeName.splitInstance? type with
  | some (outer, inner) =>
    if TypeName.isPointer inner then [outer, "<", TypeName.withoutStar inner, "*", ">"]
    else [outer, "<", inner, ">"]
  | none => [type]

def constantTokens (text : String) : List String :=
  match text.toList with
  | '-' :: number => ["-", String.ofList number]
  | _ => [text]

mutual

def Node.tokens : Node → List String
  | .ident name => [name]
  | .constant text => constantTokens text
  | .localVar name type => "let" :: name :: ":" :: typeTokens type
  | .call callee args => callee :: "(" :: argumentTokens args
  | .access left right => left.tokens ++ "." :: right.tokens
  | .binary symbol left right => left.tokens ++ symbol :: right.tokens
  | .ret none => ["return"]
  | .ret (some value) => "return" :: value.tokens
  | _ => []

def argumentTokens : List Node → List String
  | [] => [")"]
  | first :: more => first.tokens ++ laterArgumentTokens more

def laterArgumentTokens : List Node → List String
  | [] => [")"]
  | next :: more => "," :: next.tokens ++ laterArgumentTokens more

end

/-! ## Tokens of declarations -/

def annotationTokens (annotations : List String) : List String :=
  annotations.flatMap fun tag => ["#", "[", tag, "]"]

def lengthTokens (count : UInt32) : List String :=
  if count = 0 then [] else ["[", count.toNat.repr, "]"]

def Member.tokens (m : Member) : List String :=
  m.name :: ":" :: (typeTokens m.type ++ lengthTokens m.count)

def fieldTokens : List Member → List String
  | [] => ["\x7d"]
  | [last] => last.tokens ++ ["\x7d"]
  | first :: more => first.tokens ++ "," :: fieldTokens more

def bodyTokens : List Node → List String
  | [] => ["\x7d"]
  | first :: more => first.tokens ++ ";" :: bodyTokens more

def Node.headTokens : Node → List String
  | .struct decl => decl.name :: ":" :: "struct" :: "\x7b" :: fieldTokens decl.fields
  | .function name _ returns statements _ =>
    name :: ":" :: "fn" :: "(" :: ")" :: "->" :: (typeTokens returns ++
      "\x7b" :: bodyTokens statements)
  | .member decl => decl.tokens ++ [";"]
  | _ => []

def Node.annotations : Node → List String
  | .struct decl => decl.annotations
  | .function _ _ _ _ annotations => annotations
  | .member decl => decl.annotations
  | _ => []

def Node.declarationTokens (node : Node) : List String :=
  annotationTokens node.annotations ++ node.headTokens

def Scope.tokens (scope : Scope) : List String := scope.children.flatMap Node.declarationTokens

/-! ## Trees of the grammar -/

/-- The type names that can be written: a name, or an instance of one whose argument is a name or
a pointer. -/
inductive IsTypeName : String → Prop
  | plain {name : String} (hname : isIdentifier name = true) : IsTypeName name
  | generic {outer inner : String} (houter : isIdentifier outer = true)
      (hinner : isIdentifier inner = true) : IsTypeName (outer ++ "<" ++ inner ++ ">")
  | pointer {outer inner : String} (houter : isIdentifier outer = true)
      (hinner : isIdentifier inner = true) : IsTypeName (outer ++ "<" ++ inner ++ "*>")

/-- The literals that can be written: a literal of the language, or a number with a sign. -/
inductive IsConstant : String → Prop
  | plain {text} (htext : isLiteral text = true) : IsConstant text
  | negative {number} (hnumber : isNumericLiteral number = true) : IsConstant ("-" ++ number)

/-- The binding power of the operator at the root of an expression; operands bind tightest. -/
def Node.power : Node → Nat
  | .binary symbol _ _ => bindingPower symbol
  | .access _ _ => bindingPower "."
  | _ => 6

/-- The sides of an operator are those to which its tokens would be grouped: each binds tighter
than the operator, or as tight on the side to which it groups. -/
def Groups (symbol : String) (left right : Node) : Prop :=
  if groupsRight symbol then bindingPower symbol < left.power ∧ bindingPower symbol ≤ right.power
  else bindingPower symbol ≤ left.power ∧ bindingPower symbol < right.power

mutual

/-- The expressions that stand for a value. -/
inductive IsValue : Node → Prop
  | ident {name : String} (hname : IsName name) : IsValue (.ident name)
  | constant {text} (htext : IsConstant text) : IsValue (.constant text)
  | localVar {name type : String} (hname : isIdentifier name = true) (htype : IsTypeName type) :
      IsValue (.localVar name type)
  | call {callee args} (hcallee : IsName callee) (hargs : ∀ arg ∈ args, IsExpression arg) :
      IsValue (.call callee args)
  | access {left right} (hleft : IsValue left) (hright : IsValue right)
      (hgroups : Groups "." left right) : IsValue (.access left right)
  | binary {symbol left right} (hsymbol : 0 < bindingPower symbol) (haccess : symbol ≠ ".")
      (hleft : IsValue left) (hright : IsValue right) (hgroups : Groups symbol left right) :
      IsValue (.binary symbol left right)

/-- The expressions that can be a statement or an argument: a value or a return. -/
inductive IsExpression : Node → Prop
  | value {node} (hnode : IsValue node) : IsExpression node
  | leave : IsExpression (.ret none)
  | leaveWith {value} (hvalue : IsValue value) : IsExpression (.ret (some value))

end

variable {inner name outer : String}

/-- Whether the member can be a field of a struct. -/
def Member.IsField (m : Member) : Prop :=
  isIdentifier m.name = true ∧ IsTypeName m.type ∧ m.annotations = []

/-- Whether the tree is a declaration of the grammar. The type of a member is not one of the words
that start another declaration. -/
def Node.IsDeclaration : Node → Prop
  | .struct decl =>
    isIdentifier decl.name = true ∧ (∀ tag ∈ decl.annotations, isIdentifier tag = true) ∧
      ∀ m ∈ decl.fields, m.IsField
  | .function name params returns statements annotations =>
    isIdentifier name = true ∧ (∀ tag ∈ annotations, isIdentifier tag = true) ∧ params = [] ∧
      IsTypeName returns ∧ ∀ s ∈ statements, IsExpression s
  | .member decl =>
    isIdentifier decl.name = true ∧ (∀ tag ∈ decl.annotations, isIdentifier tag = true) ∧
      IsTypeName decl.type ∧ ∀ word ∈ ["struct", "fn"], (typeTokens decl.type).head? ≠ some word
  | _ => False

/-- Whether the tree is a program of the grammar. -/
def Scope.IsProgram (scope : Scope) : Prop :=
  scope.name = rootName ∧ ∀ node ∈ scope.children, node.IsDeclaration

/-! ## Normal form of a list of tokens -/

/-- What can stand at a place in a list of tokens. -/
inductive Place where
  /-- An operand can begin here: an expression starts, or an operator stands in front. -/
  | operand
  /-- An array length or an annotation stands in brackets here. -/
  | bracket
  | other
  deriving Repr, DecidableEq

/-- The place after a token. A return at the start of an expression leaves its operand to come;
anywhere else the word is a name. -/
def Place.after (place : Place) (token : String) : Place :=
  if token = "return" then (if place = .operand then .operand else .other)
  else if token = "[" then .bracket
  else if token ∈ ["\x7b", ";", "(", ","] || 0 < bindingPower token then .operand
  else .other

def decimalLength (token : String) : String :=
  match readLength? token with
  | some count => count.toNat.repr
  | none => token

def normalizeFrom (place : Place) : List String → List String
  | [] => []
  | token :: rest =>
    if token = "," ∧ rest.head? = some "\x7d" then normalizeFrom place rest
    else if token = "+" ∧ place = .operand ∧ rest.head?.any isNumericLiteral then
      normalizeFrom place rest
    else (if place = .bracket then decimalLength token else token) ::
      normalizeFrom (place.after token) rest

/-- The normal form of a list of tokens: without the comma before a closing brace and without the
plus sign of a number, and with array lengths in decimal. -/
def normalize (tokens : List String) : List String := normalizeFrom .other tokens

/-! ## Tokens of the three forms of a type -/

theorem splitInstance?_of_isIdentifier (h : isIdentifier name = true) :
    TypeName.splitInstance? name = none := by
  have hall : ∀ c ∈ name.toList, decide (c ≠ '<') = true := by
    intro c hc
    rw [decide_eq_true_eq]
    rintro rfl
    exact notMem_of_isIdentifier h (by decide) hc
  have hdrop := @List.dropWhile_append_of_pos _ _ _ [] hall
  rw [List.append_nil] at hdrop
  unfold TypeName.splitInstance?
  rw [hdrop]
  rfl

theorem splitInstance?_append (h : isIdentifier outer = true) (inner : String) :
    TypeName.splitInstance? (outer ++ "<" ++ inner ++ ">") = some (outer, inner) := by
  have hall : ∀ c ∈ outer.toList, decide (c ≠ '<') = true := by
    intro c hc
    rw [decide_eq_true_eq]
    rintro rfl
    exact notMem_of_isIdentifier h (by decide) hc
  have hne : outer.toList ≠ [] := by
    obtain ⟨c, rest, hc, -, -⟩ := isIdentifier_cons h
    rw [hc]
    exact List.cons_ne_nil _ _
  have hlist : (outer ++ "<" ++ inner ++ ">").toList =
      outer.toList ++ '<' :: (inner.toList ++ ['>']) := by
    simp [String.toList_append]
  unfold TypeName.splitInstance?
  rw [hlist, List.takeWhile_append_of_pos hall, List.dropWhile_append_of_pos hall]
  simp [hne]

theorem isPointer_of_isIdentifier (h : isIdentifier name = true) :
    TypeName.isPointer name = false := by
  unfold TypeName.isPointer
  rw [decide_eq_false_iff_not]
  intro hlast
  exact notMem_of_isIdentifier h (by decide) (List.mem_of_getLast? hlast)

@[simp]
theorem isPointer_star (name : String) : TypeName.isPointer (name ++ "*") = true := by
  simp [TypeName.isPointer, String.toList_append]

@[simp]
theorem withoutStar_star (name : String) : TypeName.withoutStar (name ++ "*") = name := by
  simp [TypeName.withoutStar, String.toList_append]

theorem typeTokens_plain (h : isIdentifier name = true) : typeTokens name = [name] := by
  simp [typeTokens, splitInstance?_of_isIdentifier h]

theorem typeTokens_generic (houter : isIdentifier outer = true)
    (hinner : isIdentifier inner = true) :
    typeTokens (outer ++ "<" ++ inner ++ ">") = [outer, "<", inner, ">"] := by
  simp [typeTokens, splitInstance?_append houter, isPointer_of_isIdentifier hinner]

theorem typeTokens_pointer (houter : isIdentifier outer = true) :
    typeTokens (outer ++ "<" ++ inner ++ "*>") = [outer, "<", inner, "*", ">"] := by
  have hassoc : outer ++ "<" ++ inner ++ "*>" = outer ++ "<" ++ (inner ++ "*") ++ ">" := by
    simp only [String.append_assoc]
    rfl
  rw [hassoc]
  simp [typeTokens, splitInstance?_append houter]

theorem head?_typeTokens_append (type : String) (rest : List String) :
    (typeTokens type ++ rest).head? = (typeTokens type).head? := by
  unfold typeTokens
  repeat' split
  all_goals rfl

/-! ## Tokens of literals -/

theorem constantTokens_of_isLiteral {text : String} (h : isLiteral text = true) :
    constantTokens text = [text] := by
  unfold constantTokens
  split
  · rename_i number hnumber
    rw [isLiteral_minus hnumber] at h
    cases h
  · rfl

theorem constantTokens_negative (number : String) :
    constantTokens ("-" ++ number) = ["-", number] := by
  simp [constantTokens, String.toList_append]

/-! ## Tokens of parts -/

theorem tokens_subset_argumentTokens {args : List Node} {arg : Node} (h : arg ∈ args) :
    arg.tokens ⊆ argumentTokens args := by
  have hlater {more : List Node} (h : arg ∈ more) : arg.tokens ⊆ laterArgumentTokens more := by
    induction more with
    | nil => cases h
    | cons next more ih =>
      intro token htoken
      rw [laterArgumentTokens, List.cons_append]
      refine .tail _ (List.mem_append.mpr ?_)
      rcases List.mem_cons.mp h with rfl | h
      · exact Or.inl htoken
      · exact Or.inr (ih h htoken)
  cases args with
  | nil => cases h
  | cons first more =>
    intro token htoken
    rw [argumentTokens, List.mem_append]
    rcases List.mem_cons.mp h with rfl | h
    · exact Or.inl htoken
    · exact Or.inr (hlater h htoken)

theorem tokens_subset_bodyTokens {statements : List Node} {statement : Node}
    (h : statement ∈ statements) : statement.tokens ⊆ bodyTokens statements := by
  induction statements with
  | nil => cases h
  | cons first more ih =>
    intro token htoken
    rw [bodyTokens, List.mem_append]
    rcases List.mem_cons.mp h with rfl | h
    · exact Or.inl htoken
    · exact Or.inr (.tail _ (ih h htoken))

/-! ## Tokens within programs -/

section Within

variable {arg node : Node} {args statements : List Node} {callee : String} {scope : Scope}

theorem infix_right (left : List String) (symbol : String) (right : List String) :
    right <:+: left ++ symbol :: right :=
  ((List.suffix_cons symbol right).trans (List.suffix_append _ _)).isInfix

theorem infix_laterArguments (h : arg ∈ args) :
    "," :: arg.tokens <:+: laterArgumentTokens args := by
  induction args with
  | nil => cases h
  | cons first more ih =>
    rw [laterArgumentTokens]
    rcases List.mem_cons.mp h with rfl | h
    · exact (List.prefix_append _ _).isInfix
    · exact (ih h).trans (List.suffix_append _ _).isInfix

/-- An argument stands behind an opening bracket or a comma. -/
theorem infix_argument (h : arg ∈ args) :
    ∃ mark ∈ ["(", ","], mark :: arg.tokens <:+: (Node.call callee args).tokens := by
  cases args with
  | nil => cases h
  | cons first more =>
    rw [Node.tokens, argumentTokens]
    rcases List.mem_cons.mp h with rfl | h
    · exact ⟨"(", by simp, [callee], laterArgumentTokens more, rfl⟩
    · have hsuffix : laterArgumentTokens more <:+
          callee :: "(" :: (first.tokens ++ laterArgumentTokens more) :=
        ⟨callee :: "(" :: first.tokens, by simp⟩
      exact ⟨",", by simp, (infix_laterArguments h).trans hsuffix.isInfix⟩

theorem infix_call (h : arg ∈ args) : arg.tokens <:+: (Node.call callee args).tokens := by
  obtain ⟨mark, -, hinfix⟩ := infix_argument h
  exact (List.suffix_cons mark arg.tokens).isInfix.trans hinfix

theorem infix_bodyTokens {statement : Node} (h : statement ∈ statements) :
    statement.tokens <:+: bodyTokens statements := by
  induction statements with
  | nil => cases h
  | cons first more ih =>
    rw [bodyTokens]
    rcases List.mem_cons.mp h with rfl | h
    · exact (List.prefix_append _ _).isInfix
    · exact (ih h).trans (infix_right _ _ _)

theorem infix_function {returns : String} {params : List Parameter} {annotations : List String} :
    bodyTokens statements <:+:
      (Node.function name params returns statements annotations).declarationTokens := by
  refine List.IsSuffix.isInfix ⟨annotationTokens annotations ++
    name :: ":" :: "fn" :: "(" :: ")" :: "->" :: (typeTokens returns ++ ["\x7b"]), ?_⟩
  simp [Node.declarationTokens, Node.annotations, Node.headTokens]

theorem infix_scope (h : node ∈ scope.children) : node.declarationTokens <:+: scope.tokens := by
  rw [Scope.tokens, List.flatMap_def]
  exact List.infix_of_mem_flatten (List.mem_map_of_mem h)

end Within

end Shader.Program
