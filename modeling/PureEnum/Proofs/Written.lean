import PureEnum.Json.Nodes
import PureEnum.Proofs.Shape
import PureEnum.Tree.Encode

/-! Subtrees in the written form. A written node is an object with a kind, and no other part of the
written form of a layer is one. So the subtrees of a node can be told from its written form, where
they stand in the order of its fields, and without them the written form is that of its shape. -/
namespace PureEnum

namespace Json

/-- An object with a kind, told from outside. -/
def IsNode (x : Json) : Prop := x.nodes = [x] ∧ x.hollow = .obj []

/-- A written content: the nodes in it are its subtrees, and between them it is the content with
nothing in the place of a subtree. -/
def Shows (written : Json) (subtrees : List Json) (bare : Json) : Prop :=
  written.nodes = subtrees ∧ written.hollow = bare

theorem shows_items {write : ρ → Json} {sub : ρ → List Json} {bare : ρ → ρ} {xs : List ρ}
    (each : ∀ x ∈ xs, (write x).Shows (sub x) (write (bare x))) :
    (arr (xs.map write)).Shows (xs.flatMap sub) (.arr ((xs.map bare).map write)) := by
  rw [Shows, nodes, hollow, nodesOfItems_eq, hollowItems_eq]
  induction xs with
  | nil => exact ⟨rfl, rfl⟩
  | cons x xs ih =>
    obtain ⟨⟨nodes, hollow⟩, others⟩ := List.forall_mem_cons.mp each
    obtain ⟨rest, behind⟩ := ih others
    simp only [List.map_cons, List.flatMap_cons, arr.injEq] at rest behind ⊢
    exact ⟨by rw [nodes, rest], by rw [hollow, behind]⟩

theorem shows_option {x : Option Json} (each : ∀ c ∈ x.toList, c.IsNode) :
    (x.getD .null).Shows x.toList ((x.map fun _ => obj []).getD .null) := by
  cases x with
  | none => exact ⟨rfl, rfl⟩
  | some c => exact each c List.mem_cons_self

theorem shows_nodes {xs : List Json} (each : ∀ c ∈ xs, c.IsNode) :
    (arr xs).Shows xs (.arr (xs.map fun _ => .obj [])) := by
  have items : (arr (xs.map id)).Shows (xs.flatMap ([·]))
      (.arr ((xs.map fun _ => .obj []).map id)) :=
    shows_items each
  simpa using items

end Json

theorem Declaration.shows_encode {d : Declaration Json} (each : ∀ c ∈ d.children, c.IsNode) :
    d.encode.Shows d.children (d.map fun _ => .obj []).encode := by
  obtain ⟨⟨name, hollowName⟩, others⟩ := List.forall_mem_cons.mp each
  obtain ⟨nodes, hollow⟩ := Json.shows_option others
  constructor
  · simp [encode, row, Row.encode, Cell.encode, Json.nodes, Json.hasKind, Json.nodesOfFields, name,
      nodes, children]
  · simp [encode, row, Row.encode, Cell.encode, Json.hollow, Json.hasKind, Json.hollowFields,
      hollowName, hollow, map]

theorem Parameter.shows_encode {p : Parameter Json} (each : ∀ c ∈ p.children, c.IsNode) :
    p.encode.Shows p.children (p.map fun _ => .obj []).encode := by
  obtain ⟨⟨name, hollowName⟩, others⟩ := List.forall_mem_cons.mp each
  obtain ⟨nodes, hollow⟩ := Json.shows_option others
  constructor
  · simp [encode, row, Row.encode, Cell.encode, Json.nodes, Json.hasKind, Json.nodesOfFields, name,
      nodes, children]
  · simp [encode, row, Row.encode, Cell.encode, Json.hollow, Json.hasKind, Json.hollowFields,
      hollowName, hollow, map]

namespace Slot

theorem shows_encode (s : Slot) (x : s.Content Json) (each : ∀ c ∈ s.children x, c.IsNode) :
    (s.encode x).Shows (s.children x) (s.encode (s.map (fun _ => .obj []) x)) := by
  match s, x with
  | .cell .node, x => exact each x List.mem_cons_self
  | .cell .node?, x => exact Json.shows_option each
  | .nodes, xs => exact Json.shows_nodes each
  | .nodes?, none => exact ⟨rfl, rfl⟩
  | .nodes?, some xs => exact Json.shows_nodes each
  | .declarations, ds =>
    exact Json.shows_items fun d member => Declaration.shows_encode fun c inside =>
      each c (List.mem_flatMap.mpr ⟨d, member, inside⟩)
  | .parameters, ps =>
    exact Json.shows_items fun p member => Parameter.shows_encode fun c inside =>
      each c (List.mem_flatMap.mpr ⟨p, member, inside⟩)
  | .texts, xs =>
    have items : (Json.arr (xs.map .str)).Shows (xs.flatMap fun _ => [])
        (.arr ((xs.map id).map .str)) :=
      Json.shows_items fun _ _ => ⟨rfl, rfl⟩
    have none : xs.flatMap (fun _ => ([] : List Json)) = [] := by simp
    rw [none, List.map_id] at items
    exact items
  | .text?, none | .text?, some _ => exact ⟨rfl, rfl⟩
  | .cell .text, _ | .cell .flag, _ | .modifiers, _ | .keyword, _ => exact ⟨rfl, rfl⟩
  | .comment, c => exact ⟨rfl, rfl⟩

end Slot

theorem Row.shows_encode : {fields : List (String × Slot)} →
    (row : Row (Slot.Content Json) fields) → (∀ c ∈ row.children, c.IsNode) →
    Json.nodesOfFields (row.encode Slot.encode) = row.children ∧
      Json.hollowFields (row.encode Slot.encode) =
        (row.map fun _ => Json.obj []).encode Slot.encode
  | [], (), _ => ⟨rfl, rfl⟩
  | field :: _, (x, rest), each => by
    rw [children, List.forall_mem_append] at each
    obtain ⟨nodes, hollow⟩ := field.2.shows_encode x each.1
    obtain ⟨others, behind⟩ := shows_encode rest each.2
    simp only [encode, Json.nodesOfFields, Json.hollowFields, nodes, hollow, others, behind, map,
      children, and_self]

namespace Node

theorem isNode_toJson (n : Node) : n.toJson.IsNode := by
  rw [toJson_eq]
  exact ⟨rfl, rfl⟩

theorem shows_toJson (n : Node) : n.toJson.inside = n.children.map toJson ∧
    n.toJson.frame = (n.layer.map fun _ => Json.obj []).encode := by
  have each : ∀ c ∈ (n.layer.map toJson).children, c.IsNode := by
    intro c member
    rw [Layer.children_map, List.mem_map] at member
    obtain ⟨child, -, rfl⟩ := member
    exact isNode_toJson child
  obtain ⟨nodes, hollow⟩ := Row.shows_encode (n.layer.map toJson).row each
  constructor
  · rw [toJson_eq]
    exact nodes.trans (Layer.children_map toJson n.layer)
  · have bare : n.toJson.frame = ((n.layer.map toJson).map fun _ => Json.obj []).encode := by
      rw [toJson_eq]
      exact congrArg (fun fields => Json.obj (("kind", .str n.layer.kind.name) :: fields)) hollow
    rw [bare, Layer.map_map]
    rfl

/-- The subtrees of a node stand in its written form in the order in which they are walked. -/
theorem inside_toJson (n : Node) : n.toJson.inside = n.children.map toJson := n.shows_toJson.1

/-- Nodes of one shape are written alike but for their subtrees. -/
theorem frame_toJson {n k : Node} (same : n.layer.shape = k.layer.shape) :
    n.toJson.frame = k.toJson.frame := by
  have filled := congrArg (Layer.map fun _ => Json.obj []) same
  simp only [Layer.shape, Layer.map_map] at filled
  rw [n.shows_toJson.2, k.shows_toJson.2]
  exact congrArg Layer.encode filled

end Node
end PureEnum
