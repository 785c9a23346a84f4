import PureEnum.Enum.Gather

/-! One level of a walk, for effects of any kind. What a node hands on is visited in order, and an
enum is enclosed when its run was visited. Gathering is the case in which events are noted. -/
namespace PureEnum.Walk

variable {m : Type → Type} [Monad m]
variable (enclose : Candidate → m Node) (visit : Node → m (Edit Node))

def segment : Segment → m Walked
  | .pinned s => return ⟨⟨s, .kept⟩, []⟩
  | .plain s => return ⟨← Revision.ofVisit visit s, []⟩
  | .enum anchor c => do
    let moved ← c.run.traverse (Revision.ofVisit visit)
    let statement ← enclose { c with run := moved.map Revision.now }
    return ⟨⟨anchor, .fresh statement⟩, moved.parts⟩

def list (statements : List Node) : m (List Revision) :=
  return (← (Segment.ofList statements).mapM (segment enclose visit)).map Walked.revision

def head : ScopeHead Node → m (ScopeHead Revision)
  | .caseOf test => return .caseOf ⟨test, ← visit test⟩
  | .file name => return .file name
  | .block => return .block
  | .moduleBlock => return .moduleBlock
  | .defaultCase => return .defaultCase

def node : Node → m (Edit Node)
  | .scope scopeHead statements => do
    let scopeHead ← head visit scopeHead
    return .ofScope scopeHead (← list enclose visit statements)
  | n => n.reviseChildren visit

end PureEnum.Walk
