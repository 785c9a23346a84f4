import PureEnum.Json.Basic

/-! Objects that have a kind, as they stand in a value. They are told from the value alone, so the
order in which a tree is written can be compared with the order in which it is walked. -/
namespace PureEnum.Json

def hasKind (fields : List (String × Json)) : Bool := fields.any fun field => field.1 == "kind"

mutual
/-- The outermost objects with a kind, in the order in which they stand. -/
def nodes : Json → List Json
  | .obj fields => if hasKind fields then [.obj fields] else nodesOfFields fields
  | .arr items => nodesOfItems items
  | .null | .bool _ | .integer _ | .float _ | .str _ => []

def nodesOfItems : List Json → List Json
  | [] => []
  | x :: items => x.nodes ++ nodesOfItems items

def nodesOfFields : List (String × Json) → List Json
  | [] => []
  | (_, x) :: fields => x.nodes ++ nodesOfFields fields
end

mutual
/-- The value with an empty object in the place of each outermost object with a kind. -/
def hollow : Json → Json
  | .obj fields => if hasKind fields then .obj [] else .obj (hollowFields fields)
  | .arr items => .arr (hollowItems items)
  | .null => .null
  | .bool value => .bool value
  | .integer value => .integer value
  | .float value => .float value
  | .str value => .str value

def hollowItems : List Json → List Json
  | [] => []
  | x :: items => x.hollow :: hollowItems items

def hollowFields : List (String × Json) → List (String × Json)
  | [] => []
  | (name, x) :: fields => (name, x.hollow) :: hollowFields fields
end

def inside : Json → List Json
  | .obj fields => nodesOfFields fields
  | .arr _ | .null | .bool _ | .integer _ | .float _ | .str _ => []

def frame : Json → Json
  | .obj fields => .obj (hollowFields fields)
  | value => value

theorem nodesOfItems_eq (items : List Json) : nodesOfItems items = items.flatMap nodes := by
  induction items with
  | nil => rfl
  | cons x items ih => rw [nodesOfItems, ih, List.flatMap_cons]

theorem hollowItems_eq (items : List Json) : hollowItems items = items.map hollow := by
  induction items with
  | nil => rfl
  | cons x items ih => rw [hollowItems, ih, List.map_cons]

end PureEnum.Json
