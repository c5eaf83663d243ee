import Shader.Proofs.Glsl.Text
import Shader.Proofs.Grammar.RoundTrip
import Shader.Proofs.Resolution.Program

/-!
# What can be resolved can be generated

The tree of a resolved program is well formed, so no defect of a tree can stop the generation of a
shader: it fails only where the entry function is missing, or where a piece of code reads a name
that nothing declares. Programs that are read from tokens have no pieces of code.
-/

namespace Shader.Program

/-! ## Programs without pieces of code -/

theorem allCodeFree_of_forall {nodes : List Node} (h : ∀ node ∈ nodes, node.CodeFree) :
    AllCodeFree nodes := by
  induction nodes with
  | nil => trivial
  | cons node rest ih =>
    exact ⟨h node (.head _), ih fun n hn => h n (.tail _ hn)⟩

mutual

theorem IsValue.codeFree {node : Node} : IsValue node → node.CodeFree
  | .ident _ => trivial
  | .constant _ => trivial
  | .localVar _ _ => trivial
  | .call _ hargs => allCodeFree_of_forall fun arg h => (hargs arg h).codeFree
  | .access hleft hright _ => ⟨hleft.codeFree, hright.codeFree⟩
  | .binary _ _ hleft hright _ => ⟨hleft.codeFree, hright.codeFree⟩

theorem IsExpression.codeFree {node : Node} : IsExpression node → node.CodeFree
  | .value hnode => hnode.codeFree
  | .leave => trivial
  | .leaveWith hvalue => hvalue.codeFree

end

theorem codeFree_of_isProgram {scope : Scope} (h : scope.IsProgram) :
    AllCodeFree scope.children := by
  refine allCodeFree_of_forall fun node hmem => ?_
  have hnode := h.2 node hmem
  cases node with
  | struct | member => trivial
  | function name params returns statements annotations =>
    exact allCodeFree_of_forall fun s hs => (hnode.2.2.2.2 s hs).codeFree
  | _ => cases hnode

end Shader.Program

namespace Shader.Glsl

open Arena

variable {t : Tree}

/-! ## Well-formed trees -/

/-- Generation from a well-formed tree succeeds unless the entry function is missing or a piece of
code reads a name that nothing declares. -/
theorem generate_wellFormed (ht : t.WellFormed) (options : Options) :
    Succeeds (generate (some t) options) ∨
    (generate (some t) options = .error (.missingEntryPoint options.completed.entryPoint) ∧
      ∀ h ∈ t.declarations, isFunctionNamed t options.completed.entryPoint h = false) ∨
    (∃ name, generate (some t) options = .error (.unresolvedSymbol name)) ∧ HasCode t := by
  obtain ⟨height, hheight⟩ := exists_height ht.acyclic
  cases hentry : findEntry t options.completed.entryPoint with
  | error e =>
    have hmissing : generate (some t) options = .error e := by
      unfold generate
      dsimp only
      rw [hentry]
      rfl
    unfold findEntry at hentry
    split at hentry
    · cases hentry
    · rename_i hfind
      cases hentry
      refine Or.inr (Or.inl ⟨hmissing, fun h hh => ?_⟩)
      exact Bool.eq_false_iff.mpr (List.find?_eq_none.mp hfind h hh)
  | ok entry =>
    have hanswers := @generate_answers t True height hheight (fun _ => ht) options entry hentry
    cases hrun : generate (some t) options with
    | ok out => exact Or.inl ⟨out, rfl⟩
    | error e =>
      rw [hrun] at hanswers
      obtain ⟨⟨name, rfl⟩, hcode⟩ := hanswers.2 trivial
      exact Or.inr (Or.inr ⟨⟨name, rfl⟩, hcode⟩)

/-! ## Programs -/

theorem mem_declarations_of_childOf {child : Handle} {decl : Function}
    (hc : Resolution.ChildOf t Tree.root child) (hnode : t.node? child = some (.function decl)) :
    child ∈ t.declarations := by
  obtain ⟨name, children, hroot, hmem⟩ := hc
  have hscope : t.scope? Tree.root = some (name, children) := by rw [Tree.scope?, hroot]
  have hchild : ¬ (t.scope? child).isSome = true := by
    rw [Tree.scope?, hnode]
    exact Bool.false_ne_true
  have hsize : 0 < t.size := Tree.lt_size_of_node? hroot
  unfold Tree.declarations
  obtain ⟨n, hn⟩ := Nat.exists_eq_succ_of_ne_zero (Nat.pos_iff_ne_zero.mp hsize)
  rw [hn, Tree.declarationsIn, hscope]
  refine List.mem_flatMap.mpr ⟨child, hmem, ?_⟩
  rw [if_neg hchild]
  exact List.mem_singleton_self _

/-- Generation from the tree of a resolved program succeeds unless the entry function is missing or
a piece of code reads a name that nothing declares. For a program that was read from tokens it
fails only if no function of the program has the name of the entry function. -/
theorem generate_of_resolve (root : Option Program.Scope) (table : Program.TypeTable) (t : Tree)
    (options : Options) (h : Resolution.resolve root table = .ok t) :
    (∀ e, generate (some t) options = .error e →
      (∃ name, e = .missingEntryPoint name) ∨ ∃ name, e = .unresolvedSymbol name) ∧
    ∀ tokens scope, Program.parse tokens = .ok scope → root = some scope →
      ∀ e, generate (some t) options = .error e →
        e = .missingEntryPoint options.completed.entryPoint ∧
        ∀ name params returns statements annotations,
          .function name params returns statements annotations ∈ scope.children →
          name ≠ options.completed.entryPoint := by
  cases root with
  | none => cases h
  | some found =>
    obtain ⟨ht, hfree, hfunctions⟩ := Resolution.resolve_sound h
    refine ⟨fun e he => ?_, ?_⟩
    · rcases generate_wellFormed ht options with ⟨out, hout⟩ | ⟨hmissing, -⟩ | ⟨⟨name, hname⟩, -⟩
      · rw [hout] at he
        cases he
      · rw [hmissing] at he
        cases he
        exact Or.inl ⟨_, rfl⟩
      · rw [hname] at he
        cases he
        exact Or.inr ⟨name, rfl⟩
    · rintro tokens scope hparse heq e he
      cases heq
      rcases generate_wellFormed ht options with ⟨out, hout⟩ | ⟨hmissing, hnone⟩ | ⟨-, hcode⟩
      · rw [hout] at he
        cases he
      · rw [hmissing] at he
        cases he
        refine ⟨rfl, ?_⟩
        rintro name params returns statements annotations hmem rfl
        obtain ⟨child, decl, hchild, hnode, hname⟩ := hfunctions _ _ _ _ _ hmem
        have hfalse := hnone child (mem_declarations_of_childOf hchild hnode)
        rw [isFunctionNamed, Tree.function?, hnode] at hfalse
        simp [hname] at hfalse
      · obtain ⟨h, decl, hnode⟩ := hcode
        have hprogram := (Program.normal_of_parse hparse).1
        exact absurd hnode (hfree (Program.codeFree_of_isProgram hprogram) h decl)

/-- A program with one function, which is not the entry function, can be read and resolved but gives
no shader. -/
theorem generate_of_resolve_sample :
    let scope := Program.Scope.root [.function "f" [] "void" [.ret none] []]
    let t : Tree := ⟨#[.scope "root" [some 3], .struct ⟨"void", none, [], []⟩, .ret none,
      .function ⟨"f", [], some 1, [some 2], []⟩]⟩
    Program.parse scope.tokens = .ok scope ∧ Resolution.resolve (some scope) .empty = .ok t ∧
      generate (some t) .default = .error (.missingEntryPoint "main") ∧ "f" ≠ "main" := by
  intro scope t
  have hparse : Program.parse scope.tokens = .ok scope :=
    Program.parse_tokens (Program.isProgram_function (by decide) (by decide)
      (List.forall_mem_singleton.mpr .leave))
  have hresolve : Resolution.resolve (some scope) .empty = .ok t :=
    Resolution.resolve_of_evaluate 9 (by decide +kernel)
  have hnone : (generate (some t) .default).toOption.isNone = true := by decide +kernel
  refine ⟨hparse, hresolve, ?_⟩
  cases he : generate (some t) .default with
  | ok out =>
    rw [he] at hnone
    cases hnone
  | error e =>
    obtain ⟨rfl, hname⟩ := (generate_of_resolve _ _ t .default hresolve).2 _ scope hparse rfl e he
    exact ⟨rfl, hname _ _ _ _ _ (List.mem_singleton_self _)⟩

end Shader.Glsl
