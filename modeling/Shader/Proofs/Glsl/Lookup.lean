import Shader.Glsl.Generate
import Shader.Proofs.Arena.Nesting

/-!
# Lookups by name

Three walks look for a declaration by its name: the search in the tree, the table of names of the
dependencies, and the search for the entry function. The first goes through the scopes itself and
stops early; the others read the list of declarations. They agree where the scopes are free of
circles: each gives the first declaration of its kind in document order.
-/

namespace Shader.Glsl

open Arena

variable {t : Tree} {h : Handle} {found handles : List Handle} {name : String}

/-- The first of the handles with a property. -/
def IsFirst (handles : List Handle) (p : Handle → Prop) (h : Handle) : Prop :=
  ∃ before after, handles = before ++ h :: after ∧ p h ∧ ∀ g ∈ before, ¬ p g

theorem find?_eq_some_iff_isFirst {p : Handle → Bool} :
    handles.find? p = some h ↔ IsFirst handles (p · = true) h := by
  rw [List.find?_eq_some_iff_append]
  constructor
  · rintro ⟨hp, before, after, hsplit, hbefore⟩
    exact ⟨before, after, hsplit, hp, fun g hg => by simpa using hbefore g hg⟩
  · rintro ⟨before, after, hsplit, hp, hbefore⟩
    exact ⟨hp, before, after, hsplit, fun g hg => by simpa using hbefore g hg⟩

/-- The search in nested scopes ends where the walk through them does, with the first declaration
of the name that the walk meets. -/
theorem search_of_walk (hwalk : t.Walk handles found) (name : String) :
    t.Search name handles (found.find? fun h => t.name h = name) := by
  induction hwalk with
  | nil => exact .nil
  | @scope child rest inside later hscope _ _ ihinside ihlater =>
    rw [List.find?_append]
    cases hfound : inside.find? fun h => t.name h = name with
    | none =>
      rw [hfound] at ihinside
      exact .outside hscope ihinside ihlater
    | some h =>
      rw [hfound] at ihinside
      exact .inside hscope ihinside
  | @leaf child rest later hleaf _ ihlater =>
    by_cases hname : t.name child = name
    · rw [List.find?_cons_of_pos (by simpa using hname)]
      exact .hit hleaf hname
    · rw [List.find?_cons_of_neg (by simpa using hname)]
      exact .miss hleaf hname ihlater

theorem isFunctionNamed_iff : isFunctionNamed t name h = true ↔
    ∃ decl, t.node? h = some (.function decl) ∧ decl.name = name := by
  unfold isFunctionNamed Tree.function?
  cases t.node? h with
  | none => simp
  | some node => cases node <;> simp

theorem findEntry_eq_ok_iff : findEntry t name = .ok h ↔
    t.declarations.find? (isFunctionNamed t name) = some h := by
  unfold findEntry
  cases t.declarations.find? (isFunctionNamed t name) <;> simp

/-- In a tree whose scopes are free of circles the walk through the declarations ends, the search
in the tree and the table of names give the first declaration of a name that it meets, and the
search for the entry gives the first function of the name. -/
theorem lookups_agree (hacyclic : t.AcyclicBelow Tree.root) (hname : name ≠ "") :
    t.Walk t.rootChildren t.declarations ∧ t.Search name t.rootChildren (t.find? name) ∧
    (∀ h, IsFirst t.declarations (t.name · = name) h ↔ t.find? name = some h) ∧
    (Catalog.ofTree t).byName? name = t.find? name ∧
    ∀ h, IsFirst t.declarations
      (fun g => ∃ decl, t.node? g = some (.function decl) ∧ decl.name = name) h ↔
        findEntry t name = .ok h := by
  have hfind : t.find? name = t.declarations.find? fun h => t.name h = name :=
    (hacyclic.search name).unique (search_of_walk hacyclic.walk name)
  refine ⟨hacyclic.walk, hacyclic.search name, fun h => ?_, ?_, fun h => ?_⟩
  · rw [hfind, find?_eq_some_iff_isFirst]
    simp only [decide_eq_true_eq]
  · rw [hfind, Catalog.byName?, if_neg hname]
    rfl
  · rw [findEntry_eq_ok_iff, find?_eq_some_iff_isFirst]
    simp only [isFunctionNamed_iff]

/-- A scope that is listed twice and bears the name itself is passed over, and the literal in it
hides the function from all but the search for the entry. -/
theorem lookups_agree_sample :
    let t : Tree := ⟨#[.scope "root" [some 1, some 3, some 1], .scope "main" [some 2],
      .literal "main" "0", .function ⟨"main", [], none, [], []⟩]⟩
    t.AcyclicBelow Tree.root ∧ t.declarations = [some 2, some 3, some 2] ∧
      (Catalog.ofTree t).byName? "main" = t.find? "main" ∧ t.find? "main" = some (some 2) ∧
      findEntry t "main" = .ok (some 3) := by
  intro t
  have hends : t.Walk t.rootChildren ([some 2] ++ some 3 :: ([some 2] ++ [])) :=
    .scope rfl (.leaf rfl .nil) (.leaf rfl (.scope rfl (.leaf rfl .nil) .nil))
  obtain ⟨hacyclic, hfound⟩ := Tree.walk_iff.mp hends
  obtain ⟨-, -, hfirst, htable, hentry⟩ :=
    lookups_agree hacyclic (show "main" ≠ "" by decide)
  refine ⟨hacyclic, hfound.symm, htable, (hfirst _).mp ⟨[], [some 3, some 2], hfound.symm, rfl, ?_⟩,
    (hentry _).mp ⟨[some 2], [some 2], hfound.symm, ⟨_, rfl, rfl⟩, ?_⟩⟩
  · exact List.forall_mem_nil _
  · rw [List.forall_mem_singleton]
    rintro ⟨decl, hnode, -⟩
    cases hnode

end Shader.Glsl
