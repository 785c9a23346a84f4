import Mathlib.Data.List.Forall2
import PureEnum.Proofs.Settled

/-! Constancy: visits change nothing that recognition goes by. A visit may enclose enums far inside
a statement and make the lists there shorter, or stop at the depth limit; the statement stays the
member, the wrapper call or the anchor that it was, and becomes none that it was not. -/
namespace PureEnum

/-- Candidates are told apart by profiles alone, at every index. -/
theorem Candidate.outline_at?_congr {left right : List Node}
    (same : left.map Node.profile = right.map Node.profile) (index : Nat) :
    (at? left index).map outline = (at? right index).map outline := by
  rw [at?, at?, find?_eq_profile, find?_eq_profile, List.map_drop, List.map_drop, same]

namespace Enum

/-- Two statements that pass the same tests, whatever name is asked for. -/
structure Alike (s t : Node) : Prop where
  reverse : ∀ name, setsReverse name t = setsReverse name s
  property : ∀ name, setsProperty name t = setsProperty name s
  element : ∀ name, setsElement name t = setsElement name s
  lookup : ∀ name, setsNameLookup name t = setsNameLookup name s
  wrapper : ∀ name, (wrapperCall? name t).isSome = (wrapperCall? name s).isSome

theorem alike_result (depth : Nat) (s : Node) : Alike s (Gather.result depth s) where
  reverse name := setsReverse_result name depth s
  property name := setsProperty_result name depth s
  element name := setsElement_result name depth s
  lookup name := setsNameLookup_result name depth s
  wrapper name := isSome_wrapperCall?_result name depth s

end Enum

namespace Gather

def visited (visit : Node → Gather (Edit Node)) (n : Node) : Gather Node :=
  return (← visit n).applyTo n

theorem settles_visited (depth : Nat) (n : Node) :
    Settles (visited (node depth) n) (result depth n) (events depth n) := by
  have settled := (settles_node depth n).map fun e => e.applyTo n
  rwa [applyTo_edit] at settled

/-- Visits of all statements of a list, with any room and from any progress, give statements that
pass the same tests, and at every index an enum of the same name, shape and run length, or none. -/
theorem visits_keep_recognition (depth : Nat) (statements : List Node) (p : Progress) :
    ∃ after q, (statements.mapM (visited (node depth))).run p = .ok (after, q) ∧
      List.Forall₂ Enum.Alike statements after ∧
      ∀ index, (Candidate.at? after index).map Candidate.outline =
        (Candidate.at? statements index).map Candidate.outline := by
  have settled := settles_mapM statements fun s _ => settles_visited depth s
  refine ⟨_, _, settled p, ?_, ?_⟩
  · apply List.forall₂_map_right_iff.mpr
    exact List.forall₂_same.mpr fun s _ => Enum.alike_result depth s
  · intro index
    apply Candidate.outline_at?_congr
    rw [List.map_map]
    exact List.map_congr_left fun s _ => profile_result depth s

end Gather
end PureEnum
