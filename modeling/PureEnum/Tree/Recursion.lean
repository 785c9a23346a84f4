import PureEnum.Tree.Layer

/-! Recursion over a tree: every direct subtree of a node is smaller than the node, so a value may
be computed from those of the subtrees, and a property shown from theirs. The size of a node
exceeds that of all its contents together, so one bound per slot is enough. -/
namespace PureEnum

noncomputable def Slot.weight : (s : Slot) → s.Content Node → Nat
  | .cell .node, x => sizeOf x
  | .cell .node?, x => sizeOf x
  | .nodes, x => sizeOf x
  | .nodes?, x => sizeOf x
  | .declarations, x => sizeOf x
  | .parameters, x => sizeOf x
  | .cell .text, _ | .cell .flag, _ | .text?, _ | .texts, _ | .modifiers, _ | .keyword, _
  | .comment, _ => 0

noncomputable def Row.weight : {fields : List (String × Slot)} → Row (Slot.Content Node) fields →
      Nat
  | [], () => 0
  | field :: _, (x, rest) => field.2.weight x + weight rest

theorem Slot.sizeOf_le_weight {c : Node} (s : Slot) (x : s.Content Node) (h : c ∈ s.children x) :
    sizeOf c ≤ s.weight x := by
  match s, x with
  | .cell .node, x => simp_all [children, Cell.children, weight]
  | .cell .node?, none => simp [children, Cell.children] at h
  | .cell .node?, some x => simp_all [children, Cell.children, weight]
  | .nodes, x => exact Nat.le_of_lt (List.sizeOf_lt_of_mem h)
  | .nodes?, none => simp [children] at h
  | .nodes?, some x =>
    have := List.sizeOf_lt_of_mem (show c ∈ x from h)
    simp only [weight, Option.some.sizeOf_spec]
    omega
  | .declarations, ds =>
    obtain ⟨d, hd, hc⟩ := List.mem_flatMap.mp h
    have outer := List.sizeOf_lt_of_mem hd
    obtain ⟨name, initializer⟩ := d
    simp only [weight, Declaration.mk.sizeOf_spec] at outer ⊢
    rcases List.mem_cons.mp hc with rfl | hc
    · omega
    · cases initializer <;> simp_all
      omega
  | .parameters, ps =>
    obtain ⟨p, hp, hc⟩ := List.mem_flatMap.mp h
    have outer := List.sizeOf_lt_of_mem hp
    obtain ⟨name, initializer, rest⟩ := p
    simp only [weight, Parameter.mk.sizeOf_spec] at outer ⊢
    rcases List.mem_cons.mp hc with rfl | hc
    · omega
    · cases initializer <;> simp_all
      omega
  | .cell .text, _ | .cell .flag, _ | .text?, _ | .texts, _ | .modifiers, _ | .keyword, _
  | .comment, _ => exact absurd h List.not_mem_nil

theorem Row.sizeOf_le_weight {c : Node} : {fields : List (String × Slot)} →
    (row : Row (Slot.Content Node) fields) → c ∈ row.children → sizeOf c ≤ row.weight
  | [], (), h => absurd h List.not_mem_nil
  | field :: _, (x, rest), h => by
    rw [weight]
    rcases List.mem_append.mp h with h | h
    · have := Slot.sizeOf_le_weight _ _ h
      omega
    · have := sizeOf_le_weight rest h
      omega

theorem Node.weight_layer_lt (n : Node) : n.layer.row.weight < sizeOf n := by
  cases n with
  | scope head _ =>
    cases head <;> simp [layer, Row.weight, Slot.weight]
    all_goals omega
  | _ => simp [layer, Row.weight, Slot.weight] <;> omega

namespace Node

theorem sizeOf_lt_of_mem_children {n c : Node} (h : c ∈ n.children) : sizeOf c < sizeOf n :=
  Nat.lt_of_le_of_lt (Row.sizeOf_le_weight _ h) (weight_layer_lt n)

/-- Computes a value for a node from the node itself and the values of its direct subtrees. -/
def recurse (step : Node → Layer α → α) (n : Node) : α :=
  step n (n.layer.mapMem fun c _ => recurse step c)
termination_by sizeOf n
decreasing_by exact sizeOf_lt_of_mem_children ‹_›

theorem recurse_eq (step : Node → Layer α → α) (n : Node) :
    n.recurse step = step n (n.layer.map fun c => c.recurse step) := by
  rw [recurse, Layer.mapMem_eq_map]

/-- What holds of a node when it holds of its direct subtrees holds of every node. -/
theorem induction_on_children {P : Node → Prop} (step : ∀ n, (∀ c ∈ n.children, P c) → P n)
    (n : Node) : P n :=
  step n fun c _ => induction_on_children step c
termination_by sizeOf n
decreasing_by exact sizeOf_lt_of_mem_children ‹_›

end Node
end PureEnum
