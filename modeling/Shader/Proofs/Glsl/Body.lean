import Shader.Glsl.Expression
import Shader.Proofs.Resolution.Bodies

/-!
# The text of a body

The text of a resolved expression can be told from the expression that it stands for. Operators of
a program are grouped by their binding powers, so no operand is put in brackets.
-/

namespace Shader.Glsl

open Arena Program.TypeName Resolution
open Program (bind_eq_ok)

variable {h : Handle} {inner key name outer symbol text : String} {depth steps : Nat}
  {locals texts : List String} {op : Operator} {node : Program.Node} {nodes : List Program.Node}
  {hs : List Handle}

/-- The name of a type in the output. An instance is written as its argument; a pointee keeps the
name that it has in the program. -/
def typeSpelling (type : String) : String :=
  match splitInstance? type with
  | some (_, inner) => if isPointer inner then withoutStar inner else spelling inner
  | none => spelling type

mutual

def sourceText (s : Spacing) : Program.Node → String
  | .ident name => name
  | .constant text => text
  | .localVar name type => typeSpelling type ++ " " ++ name
  | .access left right => sourceText s left ++ "." ++ sourceText s right
  | .call callee args =>
    spelling callee ++ "(" ++ ("," ++ s.gap).intercalate (sourceTexts s args) ++ ")"
  | .binary symbol left right =>
    match Operator.ofSymbol? symbol with
    | some op => operation s op (sourceText s left) (sourceText s right)
    | none => ""
  | .ret none => "return"
  | .ret (some value) => "return " ++ sourceText s value
  | _ => ""

def sourceTexts (s : Spacing) : List Program.Node → List String
  | [] => []
  | node :: rest => sourceText s node :: sourceTexts s rest

end

/-! ## Types -/

section Types

variable {Ok : Program.Struct → Prop} {G : String → Handle → Prop} {t : Tree}
  (htypes : ∀ key h, G key h → IsType Ok G t key h)
include htypes

theorem isSome_of_type (hh : G key h) : h.isSome = true := by
  cases h with
  | some i => rfl
  | none => cases htypes key none hh <;> contradiction

theorem typeTextFrom_of_isIdentifier (hname : isIdentifier name = true) (hh : G name h)
    (hrun : typeTextFrom t steps h = .ok text) : text = spelling name := by
  obtain ⟨decl, fields, -, -, hnode, -⟩ :=
    (htypes name h hh).of_plainName (plainName_of_isIdentifier hname)
  cases steps with
  | zero => cases hrun
  | succ steps =>
    rw [typeTextFrom, Tree.struct?, hnode] at hrun
    cases hrun
    rfl

theorem typeTextFrom_of_splitInstance (hsplit : splitInstance? key = some (outer, inner))
    (hh : G key h) (hrun : typeTextFrom t steps h = .ok text) :
    ∃ argument steps', G (argumentKey outer inner) argument ∧
      typeTextFrom t steps' argument = .ok text := by
  obtain ⟨template, argument, htemplate, hargument, hnode⟩ :=
    (htypes _ h hh).of_splitInstance hsplit
  cases steps with
  | zero => cases hrun
  | succ steps =>
    have hinst : (Struct.mk key template [] [argument]).isInstance = true :=
      isSome_of_type htypes htemplate
    rw [typeTextFrom, Tree.struct?, hnode] at hrun
    dsimp only at hrun
    rw [if_pos hinst] at hrun
    exact ⟨argument, steps, hargument, hrun⟩

theorem typeTextFrom_of_pointee
    (hsplit : splitInstance? (outer ++ "<" ++ inner ++ ">") = some (outer, inner))
    (hh : G (outer ++ "<" ++ inner ++ ">#pointee") h) (hrun : typeTextFrom t steps h = .ok text) :
    text = withoutStar inner := by
  obtain ⟨template, htemplate, hnode⟩ := (htypes _ h hh).of_pointee hsplit
  cases steps with
  | zero => cases hrun
  | succ steps =>
    have hinst : (Struct.mk inner template [] []).isInstance = true :=
      isSome_of_type htypes htemplate
    rw [typeTextFrom, Tree.struct?, hnode] at hrun
    dsimp only at hrun
    rw [if_pos hinst] at hrun
    cases hrun
    rfl

/-- The text of the struct that a type name of the grammar stands for. -/
theorem typeTextFrom_of_isTypeName {type : String} (htype : Program.IsTypeName type) (hh : G type h)
    (hrun : typeTextFrom t steps h = .ok text) : text = typeSpelling type := by
  cases htype with
  | plain hname =>
    rw [typeTextFrom_of_isIdentifier htypes hname hh hrun, typeSpelling,
      Program.splitInstance?_of_isIdentifier hname]
  | @generic outer inner houter hinner =>
    have hsplit := Program.splitInstance?_append houter inner
    have hpointer := Program.isPointer_of_isIdentifier hinner
    obtain ⟨argument, steps', hargument, hrun⟩ :=
      typeTextFrom_of_splitInstance htypes hsplit hh hrun
    rw [argumentKey, if_neg (by rw [hpointer]; exact Bool.false_ne_true)] at hargument
    rw [typeTextFrom_of_isIdentifier htypes hinner hargument hrun, typeSpelling, hsplit]
    simp [hpointer]
  | @pointer outer inner houter hinner =>
    have hassoc : outer ++ "<" ++ inner ++ "*>" = outer ++ "<" ++ (inner ++ "*") ++ ">" := by
      simp only [String.append_assoc]
      rfl
    have hsplit := Program.splitInstance?_append houter (inner ++ "*")
    rw [hassoc] at hh ⊢
    obtain ⟨argument, steps', hargument, hrun⟩ :=
      typeTextFrom_of_splitInstance htypes hsplit hh hrun
    rw [argumentKey, if_pos (Program.isPointer_star inner)] at hargument
    rw [typeTextFrom_of_pointee htypes hsplit hargument hrun, typeSpelling, hsplit]
    simp

end Types

/-! ## Brackets -/

theorem ofSymbol?_spec (h : Operator.ofSymbol? symbol = some op) :
    op.symbol = symbol ∧ op.precedence = Program.bindingPower symbol ∧
      op.groupsRight = Program.groupsRight symbol := by
  have hall : ∀ op ∈ Operator.all, op.precedence = Program.bindingPower op.symbol ∧
      op.groupsRight = Program.groupsRight op.symbol := by decide
  have hsymbol : op.symbol = symbol := by simpa using List.find?_some h
  obtain ⟨hprecedence, hgroups⟩ := hall op (List.mem_of_find?_eq_some h)
  rw [hsymbol] at hprecedence hgroups
  exact ⟨hsymbol, hprecedence, hgroups⟩

theorem needsBrackets_of_groups {below : String} {child : Operator} {left right a b : Program.Node}
    (hop : Operator.ofSymbol? symbol = some op) (hchild : Operator.ofSymbol? below = some child)
    (hgroups : Program.Groups symbol left right) :
    (left = .binary below a b → needsBrackets child op false = false) ∧
      (right = .binary below a b → needsBrackets child op true = false) := by
  obtain ⟨-, hprecedence, hright⟩ := ofSymbol?_spec hop
  obtain ⟨-, hprecedence', -⟩ := ofSymbol?_spec hchild
  unfold Program.Groups at hgroups
  unfold needsBrackets
  rw [hprecedence, hprecedence', hright]
  constructor
  · rintro rfl
    split at hgroups
    · have hlt : Program.bindingPower symbol < Program.bindingPower below := hgroups.1
      simp
      omega
    · have hle : Program.bindingPower symbol ≤ Program.bindingPower below := hgroups.1
      simp_all
  · rintro rfl
    split at hgroups
    · have hle : Program.bindingPower symbol ≤ Program.bindingPower below := hgroups.2
      simp_all
    · have hlt : Program.bindingPower symbol < Program.bindingPower below := hgroups.2
      simp
      omega

theorem operandText_of_represents {v : View} (hr : Represents v locals node h)
    {parent : Operator} {isRight : Bool}
    (hbrackets : ∀ symbol child a b, node = .binary symbol a b →
      Operator.ofSymbol? symbol = some child → needsBrackets child parent isRight = false)
    (text : String) : operandText v.tree parent isRight h text = text := by
  unfold operandText
  cases hr with
  | binary hop hnode =>
    rw [hnode]
    dsimp only
    rw [hbrackets _ _ _ _ rfl hop, if_neg Bool.false_ne_true]
  | ident hnode | constant hnode | localVar hnode | access hnode | call hnode | leave hnode
  | leaveWith hnode => rw [hnode]

/-! ## Expressions -/

section Expressions

variable {Ok : Program.Struct → Prop} {v : View} (s : Spacing)

theorem nameText_of_node (hdirect : ∀ h node, v.tree.node? h = some node → IsDirect node)
    {source : Handle} (hnode : v.tree.node? h = some (.ident name source))
    (hrun : exprTextFrom v.tree s depth h = .ok text) : text = name := by
  cases depth with
  | zero => cases hrun
  | succ depth =>
    rw [exprTextFrom, hnode] at hrun
    dsimp only at hrun
    split at hrun
    · rename_i hliteral
      exact absurd (hdirect _ _ hliteral) id
    · cases hrun
      rfl

theorem mapM_of_representsAll {write : Handle → Except GenerateError String}
    (hwrite : ∀ {locals node h text}, Program.IsExpression node → Represents v locals node h →
      write h = .ok text → text = sourceText s node)
    (hnodes : ∀ node ∈ nodes, Program.IsExpression node) (hr : RepresentsAll v locals nodes hs)
    (hrun : hs.mapM write = .ok texts) : texts = sourceTexts s nodes := by
  induction nodes generalizing locals hs texts with
  | nil =>
    cases hr
    cases hrun
    rfl
  | cons node nodes ih =>
    cases hr with
    | cons hnode hrest =>
      rw [List.mapM_cons] at hrun
      obtain ⟨text, htext, hrun⟩ := bind_eq_ok hrun
      obtain ⟨more, hmore, hrun⟩ := bind_eq_ok hrun
      cases hrun
      obtain ⟨hfirst, hlater⟩ := List.forall_mem_cons.mp hnodes
      rw [sourceTexts, hwrite hfirst hnode htext, ih hlater hrest hmore]

variable (htypes : ∀ key h, v.types key h → IsType Ok v.types v.tree key h)
  (hdirect : ∀ h node, v.tree.node? h = some node → IsDirect node)
include htypes hdirect

/-- The text of a node that stands for an expression is that of the expression. -/
theorem exprTextFrom_of_represents (hnode : Program.IsExpression node)
    (hr : Represents v locals node h) (hrun : exprTextFrom v.tree s depth h = .ok text) :
    text = sourceText s node := by
  induction depth generalizing locals node h text with
  | zero => cases hrun
  | succ depth ih =>
    cases hr with
    | ident hadded => exact nameText_of_node s hdirect hadded hrun
    | constant hadded =>
      rw [exprTextFrom, hadded] at hrun
      cases hrun
      rfl
    | localVar hadded htype =>
      obtain ⟨-, hname⟩ : _ ∧ Program.IsTypeName _ := by
        cases hnode with
        | value hvalue => cases hvalue with
          | localVar hname htype => exact ⟨hname, htype⟩
      rw [exprTextFrom, hadded] at hrun
      obtain ⟨type, htext, hrun⟩ := bind_eq_ok hrun
      cases hrun
      rw [sourceText, typeTextFrom_of_isTypeName htypes hname htype htext]
    | @access _ left right l r _ hadded hleft hright =>
      obtain ⟨hleft', hright'⟩ : Program.IsValue left ∧ Program.IsValue right := by
        cases hnode with
        | value hvalue => cases hvalue with
          | access hleft hright _ => exact ⟨hleft, hright⟩
      rw [exprTextFrom, hadded] at hrun
      obtain ⟨ltext, hltext, hrun⟩ := bind_eq_ok hrun
      obtain ⟨rtext, hrtext, hrun⟩ := bind_eq_ok hrun
      cases hrun
      have hr : rtext = sourceText s right := by
        cases hright with
        | name hname => exact nameText_of_node s hdirect hname hrtext
        | value _ hrep => exact ih (.value hright') hrep hrtext
      rw [sourceText, ih (.value hleft') hleft hltext, hr]
    | @call _ callee args _ _ _ hadded hargs =>
      have hargs' : ∀ arg ∈ args, Program.IsExpression arg := by
        cases hnode with
        | value hvalue => cases hvalue with
          | call _ hargs => exact hargs
      rw [exprTextFrom, hadded] at hrun
      obtain ⟨texts, htexts, hrun⟩ := bind_eq_ok hrun
      cases hrun
      rw [sourceText, mapM_of_representsAll s ih hargs' hargs htexts]
    | @binary _ symbol op left right l r _ hop hadded hleft hright =>
      obtain ⟨hleft', hright', hgroups⟩ :
          Program.IsValue left ∧ Program.IsValue right ∧ Program.Groups symbol left right := by
        cases hnode with
        | value hvalue => cases hvalue with
          | binary _ _ hleft hright hgroups => exact ⟨hleft, hright, hgroups⟩
      rw [exprTextFrom, hadded] at hrun
      obtain ⟨ltext, hltext, hrun⟩ := bind_eq_ok hrun
      obtain ⟨rtext, hrtext, hrun⟩ := bind_eq_ok hrun
      cases hrun
      rw [operandText_of_represents hleft fun _ _ _ _ heq hchild =>
          (needsBrackets_of_groups hop hchild hgroups).1 heq,
        operandText_of_represents hright fun _ _ _ _ heq hchild =>
          (needsBrackets_of_groups hop hchild hgroups).2 heq,
        sourceText, hop, ih (.value hleft') hleft hltext, ih (.value hright') hright hrtext]
    | leave hadded =>
      rw [exprTextFrom, hadded] at hrun
      cases hrun
      rfl
    | @leaveWith _ value x _ hadded hvalue =>
      have hvalue' : Program.IsValue value := by
        cases hnode with
        | leaveWith hvalue => exact hvalue
        | value hvalue => cases hvalue
      cases x with
      | none => exact absurd hvalue.ofKind (by simp [OfKind, Tree.kind?, Tree.node?])
      | some i =>
        rw [exprTextFrom, hadded] at hrun
        obtain ⟨text, htext, hrun⟩ := bind_eq_ok hrun
        cases hrun
        rw [sourceText, ih (.value hvalue') hvalue htext]

theorem exprTexts_of_representsAll (hnodes : ∀ node ∈ nodes, Program.IsExpression node)
    (hr : RepresentsAll v locals nodes hs) (hrun : hs.mapM (exprText v.tree s) = .ok texts) :
    texts = sourceTexts s nodes :=
  mapM_of_representsAll s
    (fun hnode hrep htext => exprTextFrom_of_represents s htypes hdirect hnode hrep htext)
    hnodes hr hrun

end Expressions

end Shader.Glsl
