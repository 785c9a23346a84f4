import PureEnum.Tree.Edit
import PureEnum.Tree.Recursion
import PureEnum.Tree.Query

/-! Renaming an identifier throughout a tree. Every identifier node of one text gives way to a
fresh one of another; texts that are not nodes stay. There is no limit on depth. -/
namespace PureEnum.Node

/-- A matching identifier is fresh even where the new text equals the old one. -/
def rename (old new : String) (n : Node) : Edit Node :=
  (n.recurse fun n (subtrees : Layer Revision) =>
    ⟨n, if n.isNamed old then .fresh (.identifier new) else subtrees.revised⟩ : Revision).edit

end PureEnum.Node
