import PureEnum.Tree.Slot

/-! Records: the parts of a node that are neither nodes nor lists of them. A record is a row of
named cells, in the order in which they are written. -/
namespace PureEnum

variable {ν : Type}

namespace Declaration

abbrev fields : List (String × Cell) := [("name", .node), ("initializer", .node?)]

def row (d : Declaration ν) : Row (Cell.Content ν) fields := (d.name, d.initializer, ())

def ofRow : Row (Cell.Content ν) fields → Declaration ν
  | (name, initializer, ()) => ⟨name, initializer⟩

@[simp] theorem ofRow_row (d : Declaration ν) : ofRow d.row = d := rfl

end Declaration

namespace Parameter

abbrev fields : List (String × Cell) := [("name", .node), ("initializer", .node?), ("rest", .flag)]

def row (p : Parameter ν) : Row (Cell.Content ν) fields := (p.name, p.initializer, p.rest, ())

def ofRow : Row (Cell.Content ν) fields → Parameter ν
  | (name, initializer, rest, ()) => ⟨name, initializer, rest⟩

@[simp] theorem ofRow_row (p : Parameter ν) : ofRow p.row = p := rfl

end Parameter

namespace Comment

abbrev fields : List (String × Cell) := [("text", .text), ("is_multi_line", .flag)]

/-- A comment holds no subtrees, so it is a row over any type of them. -/
def row (c : Comment) : Row (Cell.Content ν) fields := (c.text, c.multiLine, ())

def ofRow : Row (Cell.Content ν) fields → Comment
  | (text, multiLine, ()) => ⟨text, multiLine⟩

@[simp] theorem ofRow_row (c : Comment) : ofRow (c.row (ν := ν)) = c := rfl

end Comment
end PureEnum
