import PureEnum.Enum.Scan
import PureEnum.Tree.Query

/-! Dispatch on the kind of a node. A node of a scope kind is asked for its statement list, the
list is scanned, and where it changed the new list is put in its place. A node of such a kind that
has no list to give, or that takes none, is left to a fallback. -/
namespace PureEnum.Gather

variable (fallback visit : Node → Gather (Edit Node))

/-- Visits a node of a scope kind. The test of a case is visited before the list is scanned. -/
def dispatchScope (n : Node) : Gather (Edit Node) :=
  match n.statements? with
  | none => fallback n
  | some statements => match n with
    | .scope (.caseOf test) _ => do
      let e ← visit test
      let copy ← scan visit statements
      return if e.isFresh || copy.isSome then
        .fresh (.scope (.caseOf (e.applyTo test)) (copy.getD statements)) else .kept
    | n => do
      match ← scan visit statements with
      | none => return .kept
      | some walked => match n.withStatements? walked with
        | none => fallback n
        | some updated => return .fresh updated

def dispatch (n : Node) : Gather (Edit Node) :=
  if n.kind.isScope then dispatchScope fallback visit n else n.reviseChildren visit

def dispatchWithin : (depth : Nat) → Node → Gather (Edit Node)
  | 0, n => do
    noteLimit n.kind
    return .kept
  | depth + 1, n => dispatch fallback (dispatchWithin depth) n

end PureEnum.Gather
