import PureEnum.Proofs.Reach

/-! Locality: a statement that neither declares variables nor evaluates anything separates a list.
No run reaches across it, though a run may end right before it, so what stands up to it and what
stands behind it are cut, and gathered, each by itself. -/
namespace PureEnum

/-- Neither a variable statement nor an expression statement. -/
def Node.Separates (s : Node) : Prop :=
  s.kind ≠ .variableStatement ∧ s.kind ≠ .expressionStatement

namespace Node.Separates

variable {s : Node}

theorem evaluated? (separates : s.Separates) : s.evaluated? = none := by
  cases s with
  | expressionStatement => exact absurd rfl separates.2
  | _ => rfl

theorem find? (separates : s.Separates) (following : List Node) :
    Candidate.find? (s :: following) = none := by
  cases s with
  | variableStatement => exact absurd rfl separates.1
  | _ => rfl

end Node.Separates

section Runs

variable {p : Node → Bool} {statements : List Node} {s : Node}

theorem takeWhile_append_of_fails (member : s ∈ statements) (fails : p s = false)
    (others : List Node) : (statements ++ others).takeWhile p = statements.takeWhile p := by
  rw [List.takeWhile_append, if_neg]
  intro whole
  have all := (List.takeWhile_prefix p).eq_of_length whole
  have holds := List.mem_takeWhile_imp (all.symm ▸ member)
  rw [fails] at holds
  contradiction

/-- What fails stays behind, and everything behind it does. -/
theorem dropWhile_append_of_fails (member : s ∈ statements) (fails : p s = false)
    (others : List Node) : s ∈ statements.dropWhile p ∧
      (statements ++ others).dropWhile p = statements.dropWhile p ++ others := by
  have dropped : s ∈ statements.dropWhile p := by
    rw [← List.takeWhile_append_dropWhile (p := p) (l := statements)] at member
    rcases List.mem_append.mp member with taken | dropped
    · have holds := List.mem_takeWhile_imp taken
      rw [fails] at holds
      contradiction
    · exact dropped
  refine ⟨dropped, ?_⟩
  rw [List.dropWhile_append, if_neg]
  simpa using List.ne_nil_of_mem dropped

end Runs

namespace Enum

variable {statements : List Node} {s : Node}

theorem flatMembers_append_of_mem (member : s ∈ statements) (silent : s.evaluated? = none)
    (name : String) (others : List Node) :
    flatMembers name (statements ++ others) = flatMembers name statements := by
  have noProperty : setsProperty name s = false := by simp [setsProperty, target?_eq, silent]
  have noElement : setsElement name s = false := by simp [setsElement, target?_eq, silent]
  obtain ⟨dropped, behind⟩ := dropWhile_append_of_fails member noProperty others
  rw [flatMembers_eq, takeWhile_append_of_fails member noProperty, behind,
    takeWhile_append_of_fails dropped noElement, flatMembers_eq]

theorem fixedMembers_append_of_mem (member : s ∈ statements) (silent : s.evaluated? = none)
    (name : String) (others : List Node) :
    fixedMembers name (statements ++ others) = fixedMembers name statements :=
  takeWhile_append_of_fails member (by simp [setsNameLookup, target?_eq, silent]) others

end Enum

namespace Candidate

/-- A run that something other than an evaluation follows does not depend on what comes later. -/
theorem fits_append_iff {c : Candidate} {run rest : List Node} {s : Node} (member : s ∈ rest)
    (silent : s.evaluated? = none) (others : List Node) :
    c.Fits run (rest ++ others) ↔ c.Fits run rest := by
  have nonempty : rest ≠ [] := List.ne_nil_of_mem member
  have flat := fun name => Enum.flatMembers_append_of_mem (List.mem_append_right run member)
    silent name others
  have fixed := fun name => Enum.fixedMembers_append_of_mem (List.mem_append_right run member)
    silent name others
  constructor
  · intro fits
    cases fits with
    | wrapper found => exact .wrapper found nonempty
    | flat some longest =>
      rw [← List.append_assoc, flat] at longest
      exact .flat some longest nonempty
    | fixed some length longest =>
      rw [← List.append_assoc, fixed] at longest
      exact .fixed some length longest nonempty
  · intro fits
    have still : rest ++ others ≠ [] := List.append_ne_nil_of_left_ne_nil nonempty others
    cases fits with
    | wrapper found => exact .wrapper found still
    | flat some longest => exact .flat some (by rw [← List.append_assoc, flat, longest]) still
    | fixed some length longest =>
      exact .fixed some length (by rw [← List.append_assoc, fixed, longest]) still

/-- A list in which something other than an evaluation stands behind the first statement starts
with an enum if more follows only if it does by itself. -/
theorem find?_append_eq_none {s stop : Node} {statements : List Node}
    (missing : find? (s :: statements) = none) (member : stop ∈ statements)
    (silent : stop.evaluated? = none) (others : List Node) :
    find? (s :: (statements ++ others)) = none := by
  by_contra found
  obtain ⟨c, found⟩ := Option.ne_none_iff_exists'.mp found
  obtain ⟨run, rest, split, fits⟩ := find?_eq_some.mp found
  obtain ⟨rfl, same⟩ := List.cons.inj split
  have outside : stop ∉ run := by
    intro inside
    obtain ⟨e, rfl⟩ := fits.evaluates stop inside
    contradiction
  rcases List.append_eq_append_iff.mp same with ⟨more, rfl, -⟩ | ⟨between, rfl, rfl⟩
  · exact outside (List.mem_append_left _ member)
  · have behind := (List.mem_append.mp member).resolve_left outside
    have within := (fits_append_iff behind silent others).mp fits
    rw [find?_eq_some.mpr ⟨run, between, rfl, within⟩] at missing
    contradiction

end Candidate

/-- A list that is empty or ends in a separating statement is cut by itself, whatever follows. -/
theorem Segmented.append {statements others : List Node} {segments more : List Segment}
    (cut : Segmented statements segments) (ends : ∀ s ∈ statements.getLast?, s.Separates)
    (behind : Segmented others more) : Segmented (statements ++ others) (segments ++ more) := by
  induction cut with
  | nil => exact behind
  | @pinned rest _ s imports _ ih =>
    refine .pinned s imports (ih fun last isLast => ends last ?_)
    simp_all [List.getLast?_cons]
  | @enum run rest _ c fits _ ih =>
    have last : (c.anchor :: (run ++ rest)).getLast? = rest.getLast? := by
      rw [← List.cons_append, List.getLast?_append_of_ne_nil _ fits.rest_ne_nil]
    rw [last] at ends
    obtain ⟨s, isLast⟩ := Option.isSome_iff_exists.mp (List.getLast?_isSome.mpr fits.rest_ne_nil)
    have still := (Candidate.fits_append_iff (List.mem_of_getLast? isLast)
      (ends s isLast).evaluated? others).mpr fits
    rw [List.cons_append, List.append_assoc]
    exact .enum c still (ih ends)
  | @plain rest _ s other missing _ ih =>
    have none : Candidate.find? (s :: (rest ++ others)) = none := by
      cases last : rest.getLast? with
      | none =>
        obtain rfl := List.getLast?_eq_none_iff.mp last
        exact (ends s rfl).find? _
      | some stop =>
        have separates := ends stop (by simp [List.getLast?_cons, last])
        exact Candidate.find?_append_eq_none missing (List.mem_of_getLast? last)
          separates.evaluated? others
    refine .plain s other none (ih fun last isLast => ends last ?_)
    simp_all [List.getLast?_cons]

theorem Segment.ofList_append {s : Node} (separates : s.Separates) (before behind : List Node) :
    ofList (before ++ [s] ++ behind) = ofList (before ++ [s]) ++ ofList behind := by
  have cut := (segmented_ofList (before ++ [s])).append (by simpa using separates)
    (segmented_ofList behind)
  exact cut.eq_ofList.symm

namespace Gather

/-- What stands up to a separating statement and what stands behind it are gathered independently:
for every visitor, one that fails included, the walk is the two walks one after the other, so
revisions and events of the two runs stand side by side and their counts add up. -/
theorem gatherList_append (before behind : List Node) (s : Node) (separates : s.Separates) :
    (∀ visit, list visit (before ++ [s] ++ behind) = (do
      let first ← list visit (before ++ [s])
      let second ← list visit behind
      return first ++ second)) ∧
    ∃ first p second q, (gatherList (before ++ [s])).run .start = .ok (first, p) ∧
      (gatherList behind).run .start = .ok (second, q) ∧
      (gatherList (before ++ [s] ++ behind)).run .start =
        .ok (first ++ second, ⟨p.enclosed + q.enclosed, p.events ++ q.events⟩) := by
  have segments := Segment.ofList_append separates before behind
  have settled := settles_list (settles_node maxTreeDepth)
  refine ⟨fun visit => ?_, _, _, _, _, settled (before ++ [s]) .start, settled behind .start, ?_⟩
  · simp only [list, walk, segments, List.mapM_append, bind_assoc, pure_bind, List.map_append]
  · refine (settled (before ++ [s] ++ behind) .start).trans ?_
    rw [segments, List.map_append, List.flatMap_append, Progress.start_record_append]

def divided : List Node :=
  let setsElement := fun name => .expressionStatement (.assign (.elementAccessExpression
    (.identifier name) (.numericLiteral "0")) (.stringLiteral "A"))
  [.declare "E" (some .emptyObject), setsElement "E", .importNamed ["a"] "./a",
    .declare "F" (some .emptyObject), setsElement "F"]

/-- The import is what follows the first enum; it does not help the second one. -/
theorem gatherList_append_divided : (Node.importNamed ["a"] "./a").Separates ∧
    ∃ revisions p, (gatherList divided).run .start = .ok (revisions, p) ∧
      revisions.map Revision.isFresh = [true, false, false, false] ∧ p.enclosed = 1 := by
  have separates : (Node.importNamed ["a"] "./a").Separates := ⟨by decide, by decide⟩
  obtain ⟨-, first, p, second, q, up, behind, whole⟩ := gatherList_append
    [.declare "E" (some .emptyObject), _] [.declare "F" (some .emptyObject), _] _ separates
  have settled := settles_list (settles_node maxTreeDepth)
  obtain ⟨rfl, rfl⟩ := Prod.mk.inj (Except.ok.inj ((settled _ .start).symm.trans up))
  obtain ⟨rfl, rfl⟩ := Prod.mk.inj (Except.ok.inj ((settled _ .start).symm.trans behind))
  exact ⟨separates, _, _, whole, rfl, rfl⟩

end Gather
end PureEnum
