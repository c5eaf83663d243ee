import Shader.Proofs.Grammar.RoundTrip

/-!
# Where returns stand

A return that is not the first word of an expression is refused, and an expression is a statement
or an argument of a call. Main statement: in a program that is read, a return stands at the head of
a statement or at the head of an argument, and nowhere else; and at the head of a statement only if
no opening bracket and no comma stands before the word.
-/

namespace Shader.Program

open Text

/-- What a node is to the node above it. -/
inductive Site where
  | declaration
  | statement
  | argument
  /-- A side of an operator or of an access, or an element of a sequence or of an intrinsic. -/
  | operand
  /-- What a return gives back. -/
  | value
  deriving Repr, DecidableEq

mutual

/-- What the returns in a tree are to the nodes above them, where the tree itself is `site`. -/
def Node.returnSites (site : Site) : Node → List Site
  | .ret none => [site]
  | .ret (some value) => site :: value.returnSites .value
  | .scope _ children => sitesIn .declaration children
  | .function _ _ _ statements _ => sitesIn .statement statements
  | .intrinsic _ _ body _ => sitesIn .operand body
  | .sequence elements => sitesIn .operand elements
  | .call _ args => sitesIn .argument args
  | .access left right => left.returnSites .operand ++ right.returnSites .operand
  | .binary _ left right => left.returnSites .operand ++ right.returnSites .operand
  | _ => []

def sitesIn (site : Site) : List Node → List Site
  | [] => []
  | node :: rest => node.returnSites site ++ sitesIn site rest

end

def Scope.returnSites (scope : Scope) : List Site := sitesIn .declaration scope.children

variable {site x : Site} {node : Node} {nodes : List Node} {tokens : List String} {place : Place}
  {token word : String}

theorem mem_sitesIn : x ∈ sitesIn site nodes ↔ ∃ node ∈ nodes, x ∈ node.returnSites site := by
  induction nodes with
  | nil => simp [sitesIn]
  | cons node nodes ih => simp [sitesIn, ih]

/-! ## Trees of the grammar -/

mutual

theorem IsValue.eq_argument {node : Node} {site x : Site} :
    IsValue node → x ∈ node.returnSites site → x = .argument
  | .ident _, hx | .constant _, hx | .localVar _ _, hx => by simp [Node.returnSites] at hx
  | .call _ hargs, hx => by
    rw [Node.returnSites] at hx
    obtain ⟨arg, harg, hx⟩ := mem_sitesIn.mp hx
    exact ((hargs arg harg).eq_site_or_argument hx).elim id id
  | .access hleft hright _, hx | .binary _ _ hleft hright _, hx => by
    rw [Node.returnSites, List.mem_append] at hx
    exact hx.elim hleft.eq_argument hright.eq_argument

theorem IsExpression.eq_site_or_argument {node : Node} {site x : Site} :
    IsExpression node → x ∈ node.returnSites site → x = site ∨ x = .argument
  | .value hnode, hx => Or.inr (hnode.eq_argument hx)
  | .leave, hx => Or.inl (List.mem_singleton.mp hx)
  | .leaveWith hvalue, hx => by
    rw [Node.returnSites, List.mem_cons] at hx
    exact hx.imp_right hvalue.eq_argument

end

/-! ## Tokens -/

/-- No return stands behind an opening bracket or a comma. -/
def NoReturnArgument (tokens : List String) : Prop :=
  ∀ mark ∈ ["(", ","], ¬ [mark, "return"] <:+: tokens

theorem NoReturnArgument.of_infix {part : List String} (h : NoReturnArgument tokens)
    (hpart : part <:+: tokens) : NoReturnArgument part :=
  fun mark hmark hwithin => h mark hmark (hwithin.trans hpart)

theorem prefix_tokens_ret (value : Option Node) : ["return"] <+: (Node.ret value).tokens := by
  cases value with
  | none => exact List.prefix_refl _
  | some value => exact List.prefix_append ["return"] value.tokens

theorem NoReturnArgument.ne_ret {callee : String} {args : List Node} {value : Option Node}
    (h : NoReturnArgument (Node.call callee args).tokens) : .ret value ∉ args := by
  intro hmem
  obtain ⟨mark, hmark, hinfix⟩ : ∃ mark ∈ ["(", ","],
      mark :: (Node.ret value).tokens <:+: (Node.call callee args).tokens := infix_argument hmem
  exact h mark hmark
    ((List.cons_prefix_cons.mpr ⟨rfl, prefix_tokens_ret value⟩).isInfix.trans hinfix)

mutual

theorem IsValue.not_mem_returnSites {node : Node} {site x : Site} :
    IsValue node → NoReturnArgument node.tokens → x ∉ node.returnSites site
  | .ident _, _, hx | .constant _, _, hx | .localVar _ _, _, hx => by simp [Node.returnSites] at hx
  | .call _ hargs, hclear, hx => by
    rw [Node.returnSites] at hx
    obtain ⟨arg, harg, hx⟩ := mem_sitesIn.mp hx
    obtain ⟨value, rfl⟩ := (hargs arg harg).eq_ret (hclear.of_infix (infix_call harg)) hx
    exact hclear.ne_ret harg
  | .access hleft hright _, hclear, hx | .binary _ _ hleft hright _, hclear, hx => by
    rw [Node.tokens] at hclear
    rw [Node.returnSites, List.mem_append] at hx
    rcases hx with hx | hx
    · exact hleft.not_mem_returnSites (hclear.of_infix (List.prefix_append _ _).isInfix) hx
    · exact hright.not_mem_returnSites (hclear.of_infix (infix_right _ _ _)) hx

/-- An expression without a return in an argument is a return if there is one in it at all. -/
theorem IsExpression.eq_ret {node : Node} {site x : Site} : IsExpression node →
    NoReturnArgument node.tokens → x ∈ node.returnSites site → ∃ value, node = .ret value
  | .value hnode, hclear, hx => absurd hx (hnode.not_mem_returnSites hclear)
  | .leave, _, _ => ⟨none, rfl⟩
  | .leaveWith _, _, _ => ⟨some _, rfl⟩

end

theorem IsExpression.eq_site (h : IsExpression node) (hclear : NoReturnArgument node.tokens)
    (hx : x ∈ node.returnSites site) : x = site := by
  cases h with
  | value hnode => exact absurd hx (hnode.not_mem_returnSites hclear)
  | leave => exact List.mem_singleton.mp hx
  | @leaveWith value hvalue =>
    have hinfix : value.tokens <:+: (Node.ret (some value)).tokens :=
      (List.suffix_cons "return" value.tokens).isInfix
    rw [Node.returnSites, List.mem_cons] at hx
    exact hx.resolve_right (hvalue.not_mem_returnSites (hclear.of_infix hinfix))

/-! ## Normal form -/

theorem eq_of_decimalLength (hword : readLength? word = none) (h : decimalLength token = word) :
    token = word := by
  unfold decimalLength at h
  split at h
  · rename_i count hcount
    have hread := readLength?_repr (readLength?_ne_zero hcount)
    rw [h, hword] at hread
    cases hread
  · exact h

theorem head?_normalizeFrom (h : (normalizeFrom place tokens).head? = some "return") :
    tokens.head? = some "return" := by
  induction tokens generalizing place with
  | nil => cases h
  | cons token rest ih =>
    rw [normalizeFrom] at h
    split at h
    · rename_i hcomma
      rw [ih h] at hcomma
      exact absurd hcomma.2 (by decide)
    split at h
    · rename_i hplus
      rw [ih h] at hplus
      exact absurd hplus.2.2 (by decide)
    have hemitted := Option.some.inj h
    split at hemitted
    · rw [eq_of_decimalLength (by decide) hemitted]
      rfl
    · rw [hemitted]
      rfl

theorem infix_of_normalizeFrom {mark : String} (hmark : mark ∈ ["(", ","])
    (h : [mark, "return"] <:+: normalizeFrom place tokens) : [mark, "return"] <:+: tokens := by
  induction tokens generalizing place with
  | nil => exact h
  | cons token rest ih =>
    have hrest := List.suffix_cons token rest
    rw [normalizeFrom] at h
    split at h
    · exact (ih h).trans hrest.isInfix
    split at h
    · exact (ih h).trans hrest.isInfix
    rcases List.infix_cons_iff.mp h with hfront | hback
    · obtain ⟨hfirst, hsecond⟩ := List.cons_prefix_cons.mp hfront
      have htoken : token = mark := by
        split at hfirst
        · refine eq_of_decimalLength ?_ hfirst.symm
          have hall : ∀ mark ∈ ["(", ","], readLength? mark = none := by decide
          exact hall mark hmark
        · exact hfirst.symm
      have hnext : rest.head? = some "return" := by
        obtain ⟨more, hmore⟩ := hsecond
        have hhead : (normalizeFrom (place.after token) rest).head? = some "return" := by
          rw [← hmore]
          rfl
        exact head?_normalizeFrom hhead
      obtain ⟨more, rfl⟩ := List.head?_eq_some_iff.mp hnext
      rw [htoken]
      exact (List.prefix_append [mark, "return"] more).isInfix
    · exact (ih hback).trans hrest.isInfix

/-- The returns of a program are those of its statements. -/
theorem mem_returnSites {root : Scope} (h : root.IsProgram) (hx : x ∈ root.returnSites) :
    ∃ statement, IsExpression statement ∧ statement.tokens <:+: root.tokens ∧
      x ∈ statement.returnSites .statement := by
  obtain ⟨node, hnode, hx⟩ := mem_sitesIn.mp hx
  have hdeclaration := h.2 node hnode
  cases node with
  | function name params returns statements annotations =>
    rw [Node.returnSites] at hx
    obtain ⟨statement, hstatement, hx⟩ := mem_sitesIn.mp hx
    refine ⟨statement, hdeclaration.2.2.2.2 statement hstatement, ?_, hx⟩
    exact (infix_bodyTokens hstatement).trans (infix_function.trans (infix_scope hnode))
  | struct | member => simp [Node.returnSites] at hx
  | _ => exact absurd hdeclaration id

/-- In a program that is read, a return is a statement or an argument of a call; it is a statement
if no return is written behind an opening bracket or a comma. -/
theorem returnSites_of_parse {tokens : List String} {root : Scope} (h : parse tokens = .ok root) :
    (∀ site ∈ root.returnSites, site = .statement ∨ site = .argument) ∧
    ((∀ mark ∈ ["(", ","], ¬ [mark, "return"] <:+: tokens) →
      ∀ site ∈ root.returnSites, site = .statement) := by
  obtain ⟨hprogram, hnormal⟩ := normal_of_parse h
  refine ⟨fun site hsite => ?_, fun hclear site hsite => ?_⟩
  · obtain ⟨statement, hstatement, -, hsite⟩ := mem_returnSites hprogram hsite
    exact hstatement.eq_site_or_argument hsite
  · obtain ⟨statement, hstatement, hinfix, hsite⟩ := mem_returnSites hprogram hsite
    have hroot : NoReturnArgument root.tokens := by
      intro mark hmark hwithin
      rw [hnormal] at hwithin
      exact hclear mark hmark (infix_of_normalizeFrom hmark hwithin)
    exact hstatement.eq_site (hroot.of_infix hinfix) hsite

theorem returnSites_of_parse_sample :
    let tokens := ["f", ":", "fn", "(", ")", "->", "f32", "\x7b", "g", "(", "1", ",", "h", "(", ")",
      ")", ";", "return", "2", ";", "\x7d"]
    let root := Scope.root [.function "f" [] "f32" [.call "g" [.constant "1", .call "h" []],
      .ret (some (.constant "2"))] []]
    parse tokens = .ok root ∧ root.returnSites = [.statement] ∧
      (∀ mark ∈ ["(", ","], ¬ [mark, "return"] <:+: tokens) ∧
      ∀ site ∈ root.returnSites, site = .statement := by
  intro tokens root
  have hnumber (text : String) (h : isLiteral text = true) : IsValue (.constant text) :=
    .constant (.plain h)
  have hinner : IsValue (.call "h" []) := .call ⟨by decide, by decide⟩ (List.forall_mem_nil _)
  have hcall : IsValue (.call "g" [.constant "1", .call "h" []]) :=
    .call ⟨by decide, by decide⟩ (List.forall_mem_cons.mpr ⟨.value (hnumber "1" (by decide)),
      List.forall_mem_singleton.mpr (.value hinner)⟩)
  have hroot : root.IsProgram :=
    isProgram_function (by decide) (by decide) (List.forall_mem_cons.mpr ⟨.value hcall,
      List.forall_mem_singleton.mpr (.leaveWith (hnumber "2" (by decide)))⟩)
  have hparse : parse tokens = .ok root := parse_tokens hroot
  have hclear : ∀ mark ∈ ["(", ","], ¬ [mark, "return"] <:+: tokens := by decide
  exact ⟨hparse, rfl, hclear, (returnSites_of_parse hparse).2 hclear⟩

/-- A return is read as the argument of a call. -/
theorem parse_return_argument :
    let root := Scope.root
      [.function "main" [] "void" [.call "f" [.ret (some (.constant "1"))]] []]
    parse ["main", ":", "fn", "(", ")", "->", "void", "\x7b", "f", "(", "return", "1", ")", ";",
      "\x7d"] = .ok root ∧ root.returnSites = [.argument] := by
  intro root
  have hcall : IsValue (.call "f" [.ret (some (.constant "1"))]) :=
    .call ⟨by decide, by decide⟩
      (List.forall_mem_singleton.mpr (.leaveWith (.constant (.plain (by decide)))))
  have hroot : root.IsProgram :=
    isProgram_function (by decide) (by decide) (List.forall_mem_singleton.mpr (.value hcall))
  exact ⟨parse_tokens hroot, rfl⟩

end Shader.Program
