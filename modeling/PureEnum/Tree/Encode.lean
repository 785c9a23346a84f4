import PureEnum.Json.Basic
import PureEnum.Tree.Record
import PureEnum.Tree.Recursion

/-! The written form of a tree. A node is an object of its kind and all its fields; an absent
option is written as null, so no field is ever left out. -/
namespace PureEnum

def Json.texts (items : List String) : Json := .arr (items.map .str)

def Row.encode {C : σ → Type} (each : (s : σ) → C s → Json) :
    {fields : List (String × σ)} → Row C fields → List (String × Json)
  | [], () => []
  | field :: _, (x, rest) => (field.1, each field.2 x) :: encode each rest

def Cell.encode : (c : Cell) → c.Content Json → Json
  | node, x => x
  | node?, x => x.getD .null
  | text, x => .str x
  | flag, x => .bool x

def Declaration.encode (d : Declaration Json) : Json := .obj (d.row.encode Cell.encode)

def Parameter.encode (p : Parameter Json) : Json := .obj (p.row.encode Cell.encode)

def Comment.toJson (c : Comment) : Json := .obj (c.row.encode Cell.encode)

def Modifiers.toJson (m : Modifiers) : Json := .str m.text

def Slot.encode : (s : Slot) → s.Content Json → Json
  | cell c, x => c.encode x
  | text?, x => (x.map Json.str).getD .null
  | texts, x => .texts x
  | nodes, x => .arr x
  | nodes?, x => (x.map Json.arr).getD .null
  | modifiers, x => x.toJson
  | keyword, x => .str x.name
  | comment, x => x.toJson
  | declarations, x => .arr (x.map Declaration.encode)
  | parameters, x => .arr (x.map Parameter.encode)

def Layer.encode (l : Layer Json) : Json :=
  .obj (("kind", .str l.kind.name) :: Row.encode Slot.encode l.row)

namespace Node

def toJson (n : Node) : Json := n.recurse fun _ l => l.encode

theorem toJson_eq (n : Node) : n.toJson = (n.layer.map toJson).encode := recurse_eq ..

/-- Trees are compared by their written forms. -/
instance : BEq Node := ⟨fun a b => a.toJson == b.toJson⟩

end Node
end PureEnum
