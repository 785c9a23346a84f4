import PureEnum.Enum.Gather
import PureEnum.Print.Node

/-! The log of a run: a span that says what is gathered, what was noted on the way, and how many
enums became statements. An enclosed enum takes two entries, the second with its statement's
text. -/
namespace PureEnum

inductive Level where
  | warn | debug | trace
  deriving DecidableEq, Repr

def Level.name : Level → String
  | warn => "WARN"
  | debug => "DEBUG"
  | trace => "TRACE"

inductive Entry where
  | tree (root : Kind)
  | list (statements : Nat)
  | limit (kind : Kind)
  | enclosed (name : String) (shape : Shape) (members : Nat)
  | printed (text : String)
  | done (enclosed : Nat)
  deriving DecidableEq, Repr

namespace Entry

/-- The name of the span, which also marks every message. -/
def span : String := "wrap_enums"

def level : Entry → Level
  | limit _ => .warn
  | printed _ => .trace
  | tree _ | list _ | enclosed .. | done _ => .debug

def message? : Entry → Option String
  | tree _ | list _ => none
  | limit _ => some "[wrap_enums] nesting limit reached, subtree left unchanged"
  | enclosed .. => some "[wrap_enums] wrapped enum"
  | printed text => some ("[wrap_enums] " ++ text)
  | done _ => some "[wrap_enums] done"

end Entry

def Event.entries : Event → List Entry
  | limit kind => [.limit kind]
  | enclosed name shape members statement =>
    [.enclosed name shape members, .printed statement.text]

/-- The log of a run that was opened by an entry and ended in some progress. -/
def Progress.log (opened : Entry) (p : Progress) : List Entry :=
  opened :: p.events.toList.flatMap Event.entries ++ [.done p.enclosed]

end PureEnum
