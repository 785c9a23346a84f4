import PureEnum.Enum.Candidate

/-! A statement list cut into segments from left to right: imports, enums with their runs, and
all other statements. No statement is in two segments, and none is left out. -/
namespace PureEnum

inductive Segment where
  /-- A statement that is never looked into. -/
  | pinned (statement : Node)
  | enum (anchor : Node) (candidate : Candidate)
  | plain (statement : Node)

namespace Segment

def length : Segment → Nat
  | pinned _ | plain _ => 1
  | enum _ c => c.run.length + 1

def total : List Segment → Nat
  | [] => 0
  | g :: segments => g.length + total segments

/-- The segments of a list whose first `skip` statements belong to a run already found. -/
def ofListFrom : (skip : Nat) → List Node → List Segment
  | _, [] => []
  | skip + 1, _ :: statements => ofListFrom skip statements
  | 0, s :: statements =>
    if s.isImport then pinned s :: ofListFrom 0 statements
    else match Candidate.find? (s :: statements) with
      | some c => enum s c :: ofListFrom c.run.length statements
      | none => plain s :: ofListFrom 0 statements

def ofList (statements : List Node) : List Segment := ofListFrom 0 statements

/-- Segments cover every statement that is not skipped. -/
theorem total_ofListFrom {skip : Nat} {statements : List Node} (h : skip ≤ statements.length) :
    total (ofListFrom skip statements) + skip = statements.length := by
  induction statements generalizing skip with
  | nil =>
    have : skip = 0 := Nat.le_zero.mp h
    simp [ofListFrom, total, this]
  | cons s statements ih =>
    obtain _ | skip := skip
    · rw [ofListFrom]
      split
      · have := ih (Nat.zero_le _)
        simp only [total, length, List.length_cons]
        omega
      · split
        next c found =>
          have := ih (Nat.le_of_lt (Candidate.length_lt_of_find? found))
          simp only [total, length, List.length_cons]
          omega
        next =>
          have := ih (Nat.zero_le _)
          simp only [total, length, List.length_cons]
          omega
    · have := ih (Nat.le_of_succ_le_succ h)
      rw [ofListFrom, List.length_cons]
      omega

end Segment
end PureEnum
