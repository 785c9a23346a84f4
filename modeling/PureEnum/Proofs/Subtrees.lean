import Mathlib.Data.List.MinMax
import PureEnum.Proofs.Reach

/-! The subtrees of a tree, itself first, and its height: the number of nodes on the longest way
down from the root, which is what a bound on nesting is compared with. Whatever a visit goes to is
among the subtrees, and so is every scope whose list it walks. -/
namespace PureEnum

namespace Node

/-- A node and everything below it, each node in front of what is below it. -/
def subtrees (n : Node) : List Node := n.recurse fun n inside => n :: inside.children.flatten

theorem subtrees_eq (n : Node) : n.subtrees = n :: n.children.flatMap subtrees := by
  rw [subtrees, recurse_eq, Layer.children_map, ← List.flatMap_def]
  rfl

theorem subtrees_of_leaf {n : Node} (leaf : n.children = []) : n.subtrees = [n] := by
  rw [subtrees_eq, leaf, List.flatMap_nil]

theorem mem_subtrees {n s : Node} : s ∈ n.subtrees ↔ s = n ∨ ∃ c ∈ n.children, s ∈ c.subtrees := by
  rw [subtrees_eq, List.mem_cons, List.mem_flatMap]

theorem self_mem_subtrees (n : Node) : n ∈ n.subtrees := mem_subtrees.mpr (.inl rfl)

theorem mem_subtrees_of_child {n c s : Node} (child : c ∈ n.children) (member : s ∈ c.subtrees) :
    s ∈ n.subtrees := mem_subtrees.mpr (.inr ⟨c, child, member⟩)

theorem child_mem_subtrees {n c : Node} (child : c ∈ n.children) : c ∈ n.subtrees :=
  mem_subtrees_of_child child c.self_mem_subtrees

/-- What is below a subtree is below the tree. -/
theorem mem_subtrees_trans {n m s : Node} (outer : m ∈ n.subtrees) (inner : s ∈ m.subtrees) :
    s ∈ n.subtrees := by
  induction n using induction_on_children with
  | step n ih =>
    rcases mem_subtrees.mp outer with rfl | ⟨c, child, below⟩
    · exact inner
    · exact mem_subtrees_of_child child (ih c child below)

def height (n : Node) : Nat := n.recurse fun _ inside => inside.children.foldr max 0 + 1

theorem height_eq (n : Node) : n.height = (n.children.map height).foldr max 0 + 1 := by
  rw [height, recurse_eq, Layer.children_map]
  rfl

theorem height_pos (n : Node) : 0 < n.height := by
  rw [height_eq]
  exact Nat.succ_pos _

theorem height_lt_of_mem_children {n c : Node} (child : c ∈ n.children) : c.height < n.height := by
  rw [n.height_eq]
  exact Nat.lt_succ_of_le (List.le_max_of_le' 0 (List.mem_map_of_mem child) (Nat.le_refl _))

theorem height_le_of_mem_subtrees {n s : Node} (member : s ∈ n.subtrees) : s.height ≤ n.height := by
  induction n using induction_on_children with
  | step n ih =>
    rcases mem_subtrees.mp member with rfl | ⟨c, child, below⟩
    · exact Nat.le_refl _
    · exact Nat.le_trans (ih c child below) (Nat.le_of_lt (height_lt_of_mem_children child))

theorem skipParens_mem_subtrees (n : Node) : n.skipParens ∈ n.subtrees := by
  induction n using skipParens.induct with
  | case1 inner ih => exact mem_subtrees_of_child (List.mem_cons_self ..) ih
  | case2 n other =>
    rw [skipParens]
    · exact n.self_mem_subtrees
    · exact other

end Node

theorem Candidate.Fits.parts_subset {c : Candidate} {run rest : List Node}
    (fits : c.Fits run rest) : c.run.parts ⊆ run.flatMap Node.subtrees := by
  cases fits with
  | wrapper found =>
    obtain ⟨e, _, _, _, _, _, _, rfl, rfl, _⟩ := Enum.wrapperCall?_eq_some.mp found
    have inside := Node.mem_subtrees_of_child (n := .expressionStatement e) List.mem_cons_self
      e.skipParens_mem_subtrees
    simpa [Run.parts] using inside
  | flat | fixed =>
    intro s member
    exact List.mem_flatMap.mpr ⟨s, member, s.self_mem_subtrees⟩

/-- The parts of a list are its statements or stand in them. -/
theorem Segmented.parts_subset {statements : List Node} {segments : List Segment}
    (cut : Segmented statements segments) :
    segments.flatMap Segment.parts ⊆ statements.flatMap Node.subtrees := by
  induction cut with
  | nil => exact List.Subset.refl _
  | pinned s _ _ ih => exact List.subset_append_of_subset_right s.subtrees ih
  | plain s _ _ _ ih =>
    refine List.append_subset.mpr ⟨?_, List.subset_append_of_subset_right s.subtrees ih⟩
    exact List.cons_subset.mpr ⟨List.mem_append_left _ s.self_mem_subtrees, List.nil_subset _⟩
  | enum c fits _ ih =>
    rw [List.flatMap_cons, List.flatMap_cons, List.flatMap_append]
    refine List.append_subset.mpr ⟨?_, ?_⟩
    · exact List.subset_append_of_subset_right _ (List.subset_append_of_subset_left _
        fits.parts_subset)
    · exact List.subset_append_of_subset_right _ (List.subset_append_of_subset_right _ ih)

namespace Gather

/-- What is handed on stands in a direct subtree, itself or further down. -/
theorem exists_child_of_mem_handed {n c : Node} (handed : c ∈ n.handed) :
    ∃ child ∈ n.children, c ∈ child.subtrees := by
  rcases n.scope_or with ⟨head, statements, rfl⟩ | other
  · have children := Node.children_scope head statements
    rcases List.mem_append.mp handed with inHead | part
    · exact ⟨c, children ▸ List.mem_append_left _ inHead, c.self_mem_subtrees⟩
    · obtain ⟨s, statement, inside⟩ :=
        List.mem_flatMap.mp ((Segment.segmented_ofList statements).parts_subset part)
      exact ⟨s, children ▸ List.mem_append_right _ statement, inside⟩
  · rw [Node.handed_of_not_scope other] at handed
    exact ⟨c, handed, c.self_mem_subtrees⟩

theorem mem_subtrees_of_mem_handed {n c : Node} (handed : c ∈ n.handed) : c ∈ n.subtrees := by
  obtain ⟨child, member, inside⟩ := exists_child_of_mem_handed handed
  exact Node.mem_subtrees_of_child member inside

theorem height_lt_of_mem_handed {n c : Node} (handed : c ∈ n.handed) : c.height < n.height := by
  obtain ⟨child, member, inside⟩ := exists_child_of_mem_handed handed
  have below := Node.height_le_of_mem_subtrees inside
  have := Node.height_lt_of_mem_children member
  omega

/-- What holds of a node when it holds of all that the node hands on holds of every node. -/
theorem induction_on_handed {P : Node → Prop} (step : ∀ n : Node, (∀ c ∈ n.handed, P c) → P n)
    (n : Node) : P n :=
  step n fun c _ => induction_on_handed step c
termination_by n.height
decreasing_by exact height_lt_of_mem_handed ‹_›

/-- Every list that a visit walks is that of a scope in the tree. -/
theorem exists_scope_of_mem_walked {depth : Nat} {n : Node} {statements : List Node}
    (member : statements ∈ walked depth n) : ∃ head, .scope head statements ∈ n.subtrees := by
  induction depth generalizing n with
  | zero => contradiction
  | succ depth ih =>
    rcases List.mem_append.mp member with own | below
    · obtain ⟨head, rfl⟩ := Node.statements?_eq_some.mp (Option.mem_toList.mp own)
      exact ⟨head, Node.self_mem_subtrees _⟩
    · obtain ⟨c, handed, inside⟩ := List.mem_flatMap.mp below
      obtain ⟨head, scope⟩ := ih inside
      exact ⟨head, Node.mem_subtrees_trans (mem_subtrees_of_mem_handed handed) scope⟩

/-- An enum that a visit finds stands in the tree with its run behind it. -/
theorem exists_fits_of_mem_found {depth : Nat} {t : Node} {c : Candidate}
    (member : c ∈ found depth t) : ∃ head before first run rest, c.Fits (first :: run) rest ∧
      .scope head (before ++ c.anchor :: first :: (run ++ rest)) ∈ t.subtrees := by
  obtain ⟨statements, walked, anchored⟩ := List.mem_flatMap.mp member
  obtain ⟨head, scope⟩ := exists_scope_of_mem_walked walked
  obtain ⟨index, -, found⟩ := List.mem_filterMap.mp anchored
  obtain ⟨run, rest, split, fits⟩ := Candidate.find?_eq_some.mp found
  obtain ⟨first, run, rfl⟩ := List.exists_cons_of_ne_nil fits.run_ne_nil
  refine ⟨head, statements.take index, first, run, rest, fits, ?_⟩
  rw [← List.cons_append, ← split, List.take_append_drop]
  exact scope

end Gather
end PureEnum
