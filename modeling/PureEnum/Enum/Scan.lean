import PureEnum.Enum.Gather

/-! The scan of a statement list, copied on write. An index runs over the list and jumps over the
run of each enum. Nothing is copied before the first change; then the statements up to there are,
and from there on the copy gets each further statement. -/
namespace PureEnum.Gather

variable (visit : Node → Gather (Edit Node)) (statements : List Node)

/-- The scan from an index on, with the copy as it is by then. There is none at the end of a list
in which nothing changed. -/
def scanFrom (index : Nat) (copy : Option (List Node)) : Gather (Option (List Node)) := do
  if inside : index < statements.length then
    let s := statements[index]
    if s.isImport then
      scanFrom (index + 1) (copy.map (· ++ [s]))
    else match Candidate.at? statements index with
      | some c => do
        let moved ← c.run.traverse (Revision.ofVisit visit)
        let c := { c with run := moved.map Revision.now }
        let statement ← (c.enclosed : Except WrapError Node)
        noteEnclosed c statement
        scanFrom (index + 1 + moved.length)
          (some (copy.getD (statements.take index) ++ [statement]))
      | none => do
        let e ← visit s
        let copy := if copy.isNone && e.isFresh then some (statements.take index) else copy
        scanFrom (index + 1) (copy.map (· ++ [e.applyTo s]))
  else return copy
termination_by statements.length - index

def scan : Gather (Option (List Node)) := scanFrom visit statements 0 none

end PureEnum.Gather
