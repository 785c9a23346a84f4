import PureEnum.Enum.Enclosed
import PureEnum.Enum.Segment
import PureEnum.Limits
import PureEnum.Tree.Edit

/-! Gathering: every enum of every scope of a tree becomes one statement, from the inside out.
What holds no enum is kept. A subtree at the depth limit is kept too, and noted. -/
namespace PureEnum

/-- What is noted on the way. An enum's members are counted by its run. -/
inductive Event where
  | limit (kind : Kind)
  | enclosed (name : String) (shape : Shape) (members : Nat) (statement : Node)

structure Progress where
  enclosed : Nat
  events : Array Event

def Progress.start : Progress := ⟨0, #[]⟩

abbrev Gather := StateT Progress (Except WrapError)

/-- What became of a segment, and of each part that moved into the statement built for it. -/
structure Walked where
  revision : Revision
  parts : List Revision

namespace Gather

def noteLimit (kind : Kind) : Gather Unit :=
  modify fun p => { p with events := p.events.push (.limit kind) }

def noteEnclosed (c : Candidate) (statement : Node) : Gather Unit :=
  modify fun p => ⟨p.enclosed + 1,
    p.events.push (.enclosed c.name c.run.shape c.run.length statement)⟩

variable (visit : Node → Gather (Edit Node))

/-- The parts of a run are visited before they move. -/
def segment : Segment → Gather Walked
  | .pinned s => return ⟨⟨s, .kept⟩, []⟩
  | .plain s => return ⟨← Revision.ofVisit visit s, []⟩
  | .enum anchor c => do
    let moved ← c.run.traverse (Revision.ofVisit visit)
    let c := { c with run := moved.map Revision.now }
    let statement ← (c.enclosed : Except WrapError Node)
    noteEnclosed c statement
    return ⟨⟨anchor, .fresh statement⟩, moved.parts⟩

def walk (statements : List Node) : Gather (List Walked) :=
  (Segment.ofList statements).mapM (segment visit)

/-- What becomes of a statement list, one revision for each segment. -/
def list (statements : List Node) : Gather (List Revision) :=
  return (← walk visit statements).map Walked.revision

/-- The test of a case is visited before its statements. -/
def head : ScopeHead Node → Gather (ScopeHead Revision)
  | .caseOf test => return .caseOf ⟨test, ← visit test⟩
  | .file name => return .file name
  | .block => return .block
  | .moduleBlock => return .moduleBlock
  | .defaultCase => return .defaultCase

end Gather

namespace ScopeHead

def isFresh : ScopeHead Revision → Bool
  | caseOf test => test.isFresh
  | file _ | block | moduleBlock | defaultCase => false

def now : ScopeHead Revision → ScopeHead Node
  | caseOf test => caseOf test.now
  | file name => file name
  | block => block
  | moduleBlock => moduleBlock
  | defaultCase => defaultCase

end ScopeHead

def Edit.ofScope (head : ScopeHead Revision) (statements : List Revision) : Edit Node :=
  if head.isFresh || statements.any Revision.isFresh then
    .fresh (.scope head.now (statements.map Revision.now))
  else .kept

namespace Gather

/-- One level of a visit: the statements of a scope, the direct subtrees of any other node. -/
def layer (visit : Node → Gather (Edit Node)) : Node → Gather (Edit Node)
  | .scope head statements => do
    let head ← Gather.head visit head
    return .ofScope head (← list visit statements)
  | n => n.reviseChildren visit

/-- Visits a node that has room for `depth` open visits, its own included. -/
def node : (depth : Nat) → Node → Gather (Edit Node)
  | 0, n => do
    noteLimit n.kind
    return .kept
  | depth + 1, n => layer (node depth) n

end Gather

def Node.gather (n : Node) : Gather (Edit Node) := Gather.node maxTreeDepth n

/-- Gathers the enums of a list of statements that stand in no node. -/
def gatherList (statements : List Node) : Gather (List Revision) :=
  Gather.list (Gather.node maxTreeDepth) statements

def gatherScope (statements : List Node) : Gather (List Revision) :=
  Gather.list (Gather.node (maxTreeDepth - 1)) statements

end PureEnum
