import Mathlib.Data.Finset.Card
import Mathlib.Data.Finset.Range
import Shader.Glsl.Error
import Shader.Proofs.Arena.WellFormed

/-!
# Depth of acyclic trees

Texts and dependencies are followed to a depth above the number of nodes. In a tree in which no
node contains itself every path of references is shorter, well formed or not, so no generation
stops because that depth is reached. Any other error has its cause in what the tree lacks to be
well formed.
-/

namespace Shader.Arena

/-- A measure of handles that falls along every reference. -/
structure Height (t : Tree) (height : Handle → Nat) : Prop where
  le_size : ∀ h, height h ≤ t.size
  lt : ∀ {h node}, t.node? h = some node → ∀ d ∈ node.references, height d < height h

open Classical in
theorem exists_height {t : Tree} (hacyclic : ∀ i, ¬ Relation.TransGen t.Contains i i) :
    ∃ height, Height t height := by
  let above (i : Nat) : Finset Nat :=
    (Finset.range t.size).filter fun j => Relation.ReflTransGen t.Contains i j
  refine ⟨fun h => h.elim 0 fun i => (above i).card, ⟨fun h => ?_, fun {h node} hnode d hd => ?_⟩⟩
  · cases h with
    | none => exact Nat.zero_le _
    | some i =>
      have hle := Finset.card_filter_le (Finset.range t.size) (Relation.ReflTransGen t.Contains i)
      rwa [Finset.card_range] at hle
  · obtain ⟨i, hi, rfl⟩ := Tree.index_of_node? hnode
    have hself : i ∈ above i := Finset.mem_filter.mpr ⟨Finset.mem_range.mpr hi, .refl⟩
    cases d with
    | none => exact Finset.card_pos.mpr ⟨i, hself⟩
    | some j =>
      by_cases hj : (t.node? (some j)).isSome
      · have hedge : t.Contains i j := ⟨node, hnode, hd, hj⟩
        refine Finset.card_lt_card
          (Finset.ssubset_iff_subset_ne.mpr ⟨fun k hk => ?_, fun heq => ?_⟩)
        · obtain ⟨hk, hpath⟩ := Finset.mem_filter.mp hk
          exact Finset.mem_filter.mpr ⟨hk, hpath.head hedge⟩
        · have hmem : i ∈ above j := heq ▸ hself
          exact hacyclic i (.head' hedge (Finset.mem_filter.mp hmem).2)
      · have hempty : above j = ∅ := by
          refine Finset.filter_eq_empty_iff.mpr fun k hk hpath => hj ?_
          rcases Relation.ReflTransGen.cases_head hpath with rfl | ⟨_, ⟨_, hnode', -⟩, -⟩
          · simpa [Tree.node?, Tree.size] using hk
          · exact Option.isSome_of_eq_some hnode'
        have hpos := Finset.card_pos.mpr ⟨i, hself⟩
        simpa [hempty] using hpos

theorem kind?_of_struct? {t : Tree} {h : Handle} {decl : Struct} (hs : t.struct? h = some decl) :
    t.node? h = some (.struct decl) ∧ t.kind? h = some .struct := by
  unfold Tree.struct? at hs
  split at hs
  · rename_i decl' hnode
    cases hs
    exact ⟨hnode, by rw [Tree.kind?, hnode]; rfl⟩
  · cases hs

theorem exists_wellFormed {t : Tree} (ht : t.WellFormed) {h : Handle} {node : Node}
    (hnode : t.node? h = some node) :
    ∃ i, node.WellFormed t i := by
  obtain ⟨i, -, rfl⟩ := Tree.index_of_node? hnode
  exact ⟨i, ht.node hnode⟩

end Shader.Arena

namespace Shader.Glsl

/-! ## Outcomes -/

/-- The computation gives a result with the property, or fails, but not for want of depth, and only
with certain errors provided that `Q` holds. -/
def Outcome {α : Type} (Q : Prop) (only : GenerateError → Prop) (x : Except GenerateError α)
    (post : α → Prop) : Prop :=
  match x with
  | .ok a => post a
  | .error e => e.cause ≠ .malformed .cyclic ∧ (Q → only e)

namespace Outcome

variable {α β : Type} {Q : Prop} {only : GenerateError → Prop} {x : Except GenerateError α}
  {post : α → Prop} {post' : β → Prop}

theorem error {e : GenerateError} (h : e.cause ≠ .malformed .cyclic) (hQ : ¬ Q) :
    Outcome Q only (.error e : Except GenerateError α) post := ⟨h, fun hq => absurd hq hQ⟩

theorem imp {post' : α → Prop} (hx : Outcome Q only x post) (h : ∀ a, post a → post' a) :
    Outcome Q only x post' := by
  cases x with
  | ok a => exact h a hx
  | error e => exact hx

theorem bind {f : α → Except GenerateError β} (hx : Outcome Q only x post)
    (hf : ∀ a, post a → Outcome Q only (f a) post') : Outcome Q only (x >>= f) post' := by
  cases x with
  | ok a => exact hf a hx
  | error e => exact hx

theorem map {f : α → β} (hx : Outcome Q only x post) (hf : ∀ a, post a → post' (f a)) :
    Outcome Q only (x.map f) post' := by
  cases x with
  | ok a => exact hf a hx
  | error e => exact hx

theorem within {place : String} (hx : Outcome Q (fun _ => False) x post) :
    Outcome Q (fun _ => False) (within place x) post := by
  cases x with
  | ok | error => exact hx

theorem foldlM {f : β → α → Except GenerateError β} {inv : β → Prop} {xs : List α} {b : β}
    (hb : inv b) (hf : ∀ b, inv b → ∀ a ∈ xs, Outcome Q only (f b a) inv) :
    Outcome Q only (xs.foldlM f b) inv := by
  induction xs generalizing b with
  | nil => exact hb
  | cons a xs ih =>
    rw [List.foldlM_cons]
    refine (hf b hb a (.head _)).bind fun b' hb' => ?_
    exact ih hb' fun b hb a' ha' => hf b hb a' (.tail _ ha')

theorem mapM {f : α → Except GenerateError β} {xs : List α}
    (hf : ∀ a ∈ xs, Outcome Q only (f a) fun _ => True) :
    Outcome Q only (xs.mapM f) fun _ => True := by
  induction xs with
  | nil => trivial
  | cons a xs ih =>
    rw [List.mapM_cons]
    refine (hf a (.head _)).bind fun b _ => ?_
    exact (ih fun a' ha' => hf a' (.tail _ ha')).bind fun bs _ => trivial

end Outcome

end Shader.Glsl
