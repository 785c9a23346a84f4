import PureEnum.Proofs.Order
import PureEnum.Proofs.Rebuild
import PureEnum.Proofs.Subtrees
import PureEnum.Tree.Rename

/-! Renaming is exact and can be undone. It is recursion through one-level revision, and at every
place of a tree it leaves the renamed node of that place: the tree keeps its shape and all content
but the texts of the identifiers that were meant, and a subtree without such an identifier is kept
as the node that it is. -/
namespace PureEnum

theorem edited_map (nodes : List Node) (f : Node → Edit Node) :
    edited nodes (nodes.map f) = nodes.map fun c => (f c).applyTo c := by
  rw [edited, List.zipWith_map_right, List.zipWith_self]

namespace Node

/-- Edits of the direct subtrees that do not depend on each other. -/
theorem rebuilds_revised (f : Node → Edit Node) (n : Node) :
    Rebuilds n (n.children.map f) (n.layer.map fun c => (⟨c, f c⟩ : Revision)).revised := by
  have fresh : (n.layer.map fun c => (⟨c, f c⟩ : Revision)).children.any Revision.isFresh =
      (n.children.map f).any Edit.isFresh := by
    rw [Layer.children_map, List.any_map, List.any_map]
    rfl
  rw [Layer.revised, fresh]
  apply rebuilds_of_layer
  · rw [List.length_map]
  · rw [Layer.map_map, Layer.children_map, edited_map]
    rfl
  · rw [Layer.map_map, Layer.shape_map]

/-- The layer of a node after such edits. -/
theorem layer_applyTo {f : Node → Edit Node} {n : Node} {answer : Edit Node}
    (rebuilds : Rebuilds n (n.children.map f) answer) :
    (answer.applyTo n).layer = n.layer.map fun c => (f c).applyTo c := by
  cases answer with
  | kept =>
    have kept := rebuilds.kept_iff.mp rfl
    refine ((Layer.map_congr fun c child => ?_).trans n.layer.map_id).symm
    rw [kept (f c) (List.mem_map_of_mem child)]
    rfl
  | fresh rebuilt =>
    have refills := rebuilds.refills rebuilt rfl
    apply Layer.eq_of_shape
    · rw [Layer.shape_map]
      exact refills.shape
    · rw [Layer.children_map, ← edited_map]
      exact refills.children

variable {old new : String}

theorem rename_identifier : (identifier old).rename old new = .fresh (.identifier new) := by
  rw [rename, recurse_eq]
  simp

/-- Any other node is rebuilt from its renamed subtrees. -/
theorem rebuilds_rename {n : Node} (other : n ≠ .identifier old) :
    Rebuilds n (n.children.map (rename old new)) (n.rename old new) := by
  have unnamed : ¬ n.isNamed old := mt isNamed_iff.mp other
  have revised := rebuilds_revised (rename old new) n
  rw [rename, recurse_eq]
  have revision : ∀ c : Node, (c.recurse fun n (subtrees : Layer Revision) =>
      ⟨n, if n.isNamed old then .fresh (.identifier new) else subtrees.revised⟩ : Revision) =
        ⟨c, c.rename old new⟩ := by
    intro c
    rw [rename, recurse_eq]
  simp only [revision, if_neg unnamed]
  exact revised

/-- Revision of the direct subtrees, with its mark or without, does the step of the recursion. -/
theorem revise_rename {n : Node} (other : n ≠ .identifier old) :
    Mark.revise (m := Id) (fun c => pure (c.rename old new)) n =
      pure (n.rename old new).value? := by
  obtain ⟨rebuild, rebuilds, revised⟩ := n.yields_reviseChildren
  have plain : n.reviseChildren (m := Id) (fun c => pure (c.rename old new)) =
      rebuild <$> n.children.mapM fun c => pure (c.rename old new) := revised Id _
  have renames : Rebuilds n (n.children.map (rename old new)) (n.rename old new) :=
    rebuilds_rename other
  have same := (rebuilds _ (List.length_map ..)).unique renames
  rw [Mark.revise_eq, plain, List.mapM_pure, map_pure, map_pure, same]

theorem rename_eq_kept_iff {n : Node} :
    n.rename old new = .kept ↔ .identifier old ∉ n.subtrees := by
  induction n using induction_on_children with
  | step n ih =>
    by_cases named : n = .identifier old
    · subst named
      rw [rename_identifier]
      exact iff_of_false nofun fun absent => absent (self_mem_subtrees _)
    · rw [(rebuilds_rename named).kept_iff, mem_subtrees, not_or, List.forall_mem_map]
      constructor
      · rintro kept
        refine ⟨fun same => named same.symm, ?_⟩
        rintro ⟨c, child, member⟩
        exact (ih c child).mp (kept c child) member
      · rintro ⟨-, absent⟩ c child
        exact (ih c child).mpr fun member => absent ⟨c, child, member⟩

def renamed (old new : String) (n : Node) : Node := (n.rename old new).applyTo n

theorem renamed_identifier : (identifier old).renamed old new = .identifier new := by
  rw [renamed, rename_identifier, Edit.applyTo_fresh]

theorem layer_renamed {n : Node} (other : n ≠ .identifier old) :
    (n.renamed old new).layer = n.layer.map (renamed old new) :=
  layer_applyTo (rebuilds_rename other)

theorem renamed_eq {n : Node} (other : n ≠ .identifier old) :
    n.renamed old new = (n.layer.map (renamed old new)).node := by
  rw [← layer_renamed other, node_layer]

theorem children_renamed (n : Node) :
    (n.renamed old new).children = n.children.map (renamed old new) := by
  by_cases named : n = .identifier old
  · subst named
    rw [renamed_identifier]
    rfl
  · rw [children, layer_renamed named, Layer.children_map, children]

/-- The places of the renamed tree are those of the tree. -/
theorem descend?_renamed (n : Node) (way : List Nat) :
    (n.renamed old new).descend? way = (n.descend? way).map (renamed old new) := by
  induction way generalizing n with
  | nil => rfl
  | cons number way ih =>
    rw [descend?, descend?, children_renamed, List.getElem?_map]
    cases n.children[number]? with
    | none => rfl
    | some c => exact ih c

/-- An identifier has no subtrees, so no other node becomes one by what becomes of them. -/
theorem eq_identifier_of_layer {n m : Node} {f : Node → Node} {text : String}
    (layer : m.layer = n.layer.map f) (same : m = .identifier text) : n = .identifier text := by
  subst same
  have leaf : n.layer.children = [] := by
    have mapped := congrArg Layer.children layer
    rw [Layer.children_map] at mapped
    exact List.map_eq_nil_iff.mp mapped.symm
  have whole : n.layer = (identifier text).layer := by
    apply Layer.eq_of_shape
    · rw [layer, Layer.shape_map]
    · exact leaf
  rw [← n.node_layer, whole, node_layer]

/-- A name that the tree does not have yet can be taken back. -/
theorem renamed_renamed {n : Node} (unused : .identifier new ∉ n.subtrees) :
    (n.renamed old new).renamed new old = n := by
  induction n using induction_on_children with
  | step n ih =>
    by_cases named : n = .identifier old
    · subst named
      rw [renamed_identifier, renamed_identifier]
    · have layer : (n.renamed old new).layer = n.layer.map (renamed old new) :=
        layer_renamed named
      have other : n.renamed old new ≠ .identifier new := by
        intro same
        have taken := eq_identifier_of_layer layer same
        exact unused (taken ▸ self_mem_subtrees n)
      have back : ∀ c ∈ n.layer.children, (renamed new old ∘ renamed old new) c = c :=
        fun c child => ih c child fun member => unused (mem_subtrees_of_child child member)
      rw [renamed_eq other, layer, Layer.map_map, Layer.map_eq_self_iff.mpr back, node_layer]

structure Renames (old new : String) (n : Node) : Prop where
  kept_iff : n.rename old new = .kept ↔ .identifier old ∉ n.subtrees
  named : n = .identifier old → n.rename old new = .fresh (.identifier new)
  rebuilds : n ≠ .identifier old →
    Rebuilds n (n.children.map (rename old new)) (n.rename old new)
  /-- The step of the recursion is the one-level revision that keeps a mark. -/
  revises : n ≠ .identifier old →
    Mark.revise (m := Id) (fun c => pure (c.rename old new)) n = pure (n.rename old new).value?
  shape : n ≠ .identifier old → (n.renamed old new).layer.shape = n.layer.shape

/-- Renaming keeps a tree exactly when the tree has no identifier of the old text. Such an
identifier gives way to one of the new text, and any other node keeps all content but its subtrees.
The places of the renamed tree are those of the tree, with what renaming leaves of the subtree at
each, of which the same is true. Where the new text was unused, renaming back gives the tree again.
No nesting is too deep. -/
theorem rename_exact (old new : String) (t : Node) :
    Renames old new t ∧
    (∀ way, (t.renamed old new).descend? way = (t.descend? way).map (renamed old new)) ∧
    (.identifier new ∉ t.subtrees → (t.renamed old new).renamed new old = t) := by
  refine ⟨⟨rename_eq_kept_iff, ?_, rebuilds_rename, revise_rename, fun other => ?_⟩,
    t.descend?_renamed, renamed_renamed⟩
  · rintro rfl
    exact rename_identifier
  · rw [layer_renamed other, Layer.shape_map]

def recording : Node :=
  .callExpression (.propertyAccessExpression (.identifier "log") "a")
    [.identifier "a", .identifier "c"]

/-- Only the value is renamed, and the name is taken back. -/
theorem rename_exact_recording :
    recording.renamed "a" "b" = .callExpression
      (.propertyAccessExpression (.identifier "log") "a") [.identifier "b", .identifier "c"] ∧
    .identifier "b" ∉ recording.subtrees ∧
    (recording.renamed "a" "b").renamed "b" "a" = recording := by
  have unused : .identifier "b" ∉ recording.subtrees := by
    simp [recording, subtrees_eq, children, layer, Layer.children, Row.children, Slot.children,
      Cell.children]
  refine ⟨?_, unused, (rename_exact "a" "b" recording).2.2 unused⟩
  simp [recording, renamed_eq, renamed_identifier, layer, Layer.map, Row.map, Slot.map, Cell.map,
    Layer.node]

end Node
end PureEnum
