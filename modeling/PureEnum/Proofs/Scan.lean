import Mathlib.Algebra.GroupWithZero.Nat
import PureEnum.Enum.Scan
import PureEnum.Proofs.Reach
import PureEnum.Proofs.Sharing

/-! The scan that copies on write is the walk over segments: same effects in the same order, and a
copy exactly when some segment did not stay as it is. No jump passes an anchor, since the
statements of a run only evaluate. -/
namespace PureEnum

/-- Traversals keep the length of a run, so what comes behind one may use either length. -/
theorem Run.bind_traverse_length {β μ ν : Type} (f : ν → Gather μ) (run : Run ν)
    (next : Run μ → Nat → Gather β) : (run.traverse f >>= fun r => next r r.length) =
      run.traverse f >>= fun r => next r run.length := by
  cases run with
  | wrapper call => simp [traverse, length]
  | flat members =>
    simp only [traverse, bind_assoc, pure_bind, length]
    exact bind_mapM_congr fun ys length => by rw [length]
  | fixed members =>
    simp only [traverse, bind_assoc, pure_bind, length]
    exact bind_mapM_congr fun ys length => by rw [length]

namespace Gather

/-- The copy after the revisions of what stands behind `before`. -/
def extended (before : List Node) : Option (List Node) → List Revision → Option (List Node)
  | some copy, revisions => some (copy ++ revisions.map Revision.now)
  | none, revisions =>
    if revisions.any Revision.isFresh then some (before ++ revisions.map Revision.now) else none

section Extended

variable (before : List Node) (copy : Option (List Node)) (revisions : List Revision)

@[simp] theorem extended_nil : extended before copy [] = copy := by
  cases copy <;> simp [extended]

theorem extended_kept (s : Node) : extended before copy (⟨s, .kept⟩ :: revisions) =
    extended (before ++ [s]) (copy.map (· ++ [s])) revisions := by
  cases copy <;> simp [extended, Revision.isFresh, Edit.isFresh, Revision.now]

/-- What stood before the first change is in the copy already, so it is not asked for again. -/
theorem extended_fresh (s now : Node) (others : List Node) :
    extended before copy (⟨s, .fresh now⟩ :: revisions) =
      extended others (some (copy.getD before ++ [now])) revisions := by
  cases copy <;> simp [extended, Revision.isFresh, Edit.isFresh, Revision.now]

end Extended

theorem getElem_behind (before : List Node) (s : Node) (rest : List Node)
    (inside : before.length < (before ++ s :: rest).length) :
    (before ++ s :: rest)[before.length] = s := by simp

theorem at?_behind (before rest : List Node) :
    Candidate.at? (before ++ rest) before.length = Candidate.find? rest := by
  rw [Candidate.at?, List.drop_left]

/-- From any place at which a segment starts, and whatever was copied by then, the scan does what
the walk over the remaining segments does. The induction is on the cut of the rest: each round of
the scan takes off one segment. -/
theorem scanFrom_eq (visit : Node → Gather (Edit Node)) {rest : List Node} {segments : List Segment}
    (cut : Segmented rest segments) (before : List Node) (copy : Option (List Node)) :
    scanFrom visit (before ++ rest) before.length copy =
      segments.mapM (segment visit) >>= fun walked =>
        pure (extended before copy (walked.map Walked.revision)) := by
  induction cut generalizing before copy with
  | nil =>
    rw [scanFrom]
    simp
  | @pinned rest _ s imports _ ih =>
    have follows := ih (before ++ [s]) (copy.map (· ++ [s]))
    rw [List.append_assoc, List.singleton_append, List.length_append, List.length_singleton]
      at follows
    rw [scanFrom, dif_pos (by simp)]
    simp only [getElem_behind, if_pos imports, follows, List.mapM_cons, segment, pure_bind,
      bind_assoc, List.map_cons, extended_kept]
  | @enum run rest _ c fits _ ih =>
    have found : Candidate.find? (c.anchor :: (run ++ rest)) = some c :=
      Candidate.find?_eq_some.mpr ⟨run, rest, rfl, fits⟩
    have follows := fun out => ih (before ++ (c.anchor :: run)) (some out)
    simp only [List.append_assoc, List.cons_append, List.length_append, List.length_cons,
      fits.length_eq] at follows
    rw [scanFrom, dif_pos (by simp)]
    simp only [getElem_behind, Candidate.isImport_anchor, at?_behind, found, List.take_left,
      List.mapM_cons, segment, pure_bind, bind_assoc, List.map_cons]
    simp only [extended_fresh before copy _ _ _ (before ++ (c.anchor :: run))]
    rw [if_neg Bool.false_ne_true, Run.bind_traverse_length _ _ fun moved length =>
      liftM ({ c with run := moved.map Revision.now } : Candidate).enclosed >>= fun statement =>
        noteEnclosed { c with run := moved.map Revision.now } statement >>= fun _ =>
          scanFrom visit (before ++ c.anchor :: (run ++ rest)) (before.length + 1 + length)
            (some (copy.getD before ++ [statement]))]
    simp only [Nat.add_assoc, Nat.add_comm 1, follows]
  | @plain rest _ s other none _ ih =>
    have follows := ih (before ++ [s])
    simp only [List.append_assoc, List.singleton_append, List.length_append,
      List.length_singleton] at follows
    rw [scanFrom, dif_pos (by simp)]
    simp only [getElem_behind, other, at?_behind, none, List.take_left, List.mapM_cons, segment,
      Revision.ofVisit, pure_bind, bind_assoc, List.map_cons, follows]
    rw [if_neg Bool.false_ne_true]
    congr 1
    funext e
    cases e with
    | kept => simp [extended_kept, Edit.isFresh]
    | fresh now =>
      cases copy <;> simp [extended_fresh before _ _ _ _ (before ++ [s]), Edit.isFresh]

theorem scan_eq (visit : Node → Gather (Edit Node)) (statements : List Node) :
    scan visit statements = list visit statements >>= fun revisions =>
      pure (extended [] none revisions) := by
  simp only [list, bind_assoc, pure_bind]
  exact scanFrom_eq visit (Segment.segmented_ofList statements) [] none

end Gather

namespace Candidate

/-- What stands at an anchor: the run, nothing of which is an import, and something behind it. -/
theorem drop_of_at? {statements : List Node} {index : Nat} {c : Candidate}
    (found : at? statements index = some c) : ∃ run rest,
      statements.drop index = c.anchor :: (run ++ rest) ∧ c.Fits run rest :=
  find?_eq_some.mp found

/-- No statement of a run anchors an enum, whatever follows the run. -/
theorem at?_append_of_evaluates {run : List Node} (evaluates : ∀ s ∈ run, ∃ e,
    s = .expressionStatement e) (rest : List Node) {index : Nat} (inside : index < run.length) :
    at? (run ++ rest) index = none := by
  obtain ⟨e, expression⟩ := evaluates _ (List.getElem_mem inside)
  rw [at?, List.drop_append_of_le_length (Nat.le_of_lt inside),
    List.drop_eq_getElem_cons inside, expression]
  rfl

/-- The run of an enum ends before the next anchor. -/
theorem run_before {statements : List Node} {first second : Nat} {c d : Candidate}
    (atFirst : at? statements first = some c) (atSecond : at? statements second = some d)
    (before : first < second) : first + c.run.length < second := by
  obtain ⟨run, rest, split, fits⟩ := drop_of_at? atFirst
  by_contra within
  obtain ⟨offset, rfl⟩ : ∃ offset, second = first + 1 + offset := ⟨second - first - 1, by omega⟩
  have inside : offset < run.length := by
    rw [fits.length_eq]
    omega
  have none := at?_append_of_evaluates fits.evaluates rest inside
  rw [at?, Nat.add_assoc, ← List.drop_drop, split, Nat.add_comm, List.drop_succ_cons] at atSecond
  exact absurd (none.symm.trans atSecond) (Option.some_ne_none _).symm

/-- An enum ends before its list does. -/
theorem run_inside {statements : List Node} {index : Nat} {c : Candidate}
    (found : at? statements index = some c) : index + c.run.length + 1 < statements.length := by
  obtain ⟨run, rest, split, fits⟩ := drop_of_at? found
  have length := congrArg List.length split
  have behind := List.length_pos_iff.mpr fits.rest_ne_nil
  rw [List.length_drop, List.length_cons, List.length_append, fits.length_eq] at length
  omega

theorem run_not_import {statements : List Node} {index : Nat} {c : Candidate}
    (found : at? statements index = some c) :
    ∀ s ∈ (statements.drop index).take (c.run.length + 1), s.isImport = false := by
  obtain ⟨run, rest, split, fits⟩ := drop_of_at? found
  rw [split, List.take_succ_cons, ← fits.length_eq, List.take_left, List.forall_mem_cons]
  refine ⟨isImport_anchor c, fun s member => ?_⟩
  obtain ⟨e, rfl⟩ := fits.evaluates s member
  rfl

end Candidate

namespace Segment

def placed : (index : Nat) → List Segment → List (Nat × Segment)
  | _, [] => []
  | index, g :: segments => (index, g) :: placed (index + g.length) segments

theorem le_of_mem_placed {index place : Nat} {g : Segment} {segments : List Segment}
    (member : (place, g) ∈ placed index segments) : index ≤ place := by
  induction segments generalizing index with
  | nil => exact absurd member List.not_mem_nil
  | cons first segments ih =>
    rcases List.mem_cons.mp member with same | member
    · obtain ⟨rfl, -⟩ := Prod.mk.inj same
      exact Nat.le_refl _
    · have := ih member
      omega

/-- A segment stands first, or behind the first one. -/
theorem mem_placed_cons {start index : Nat} {g first : Segment} {segments : List Segment} :
    (start + index, g) ∈ placed start (first :: segments) ↔ (index = 0 ∧ g = first) ∨
      ∃ behind, index = first.length + behind ∧
        (start + first.length + behind, g) ∈ placed (start + first.length) segments := by
  rw [placed, List.mem_cons, Prod.mk.injEq, Nat.add_eq_left]
  refine or_congr Iff.rfl ⟨fun member => ?_, ?_⟩
  · obtain ⟨behind, same⟩ := Nat.exists_eq_add_of_le (le_of_mem_placed member)
    exact ⟨behind, by omega, same ▸ member⟩
  · rintro ⟨behind, rfl, member⟩
    rwa [← Nat.add_assoc]

end Segment

/-- The enums of a list are the segments that start where there is one. -/
theorem Segmented.mem_placed_iff {statements : List Node} {segments : List Segment}
    (cut : Segmented statements segments) (start index : Nat) (anchor : Node) (c : Candidate) :
    (start + index, .enum anchor c) ∈ Segment.placed start segments ↔
      Candidate.at? statements index = some c ∧ anchor = c.anchor := by
  induction cut generalizing start index with
  | nil => simp [Segment.placed, Candidate.at?, Candidate.find?]
  | @pinned rest _ s imports _ ih =>
    rw [Segment.mem_placed_cons]
    simp only [reduceCtorEq, and_false, false_or, ih, Segment.length]
    cases index <;> simp [Candidate.at?, Candidate.find?_of_isImport imports, Nat.add_comm 1]
  | @enum run rest segments d fits _ ih =>
    rw [Segment.mem_placed_cons]
    simp only [ih, Segment.length, ← fits.length_eq, Segment.enum.injEq]
    have found : Candidate.at? (d.anchor :: (run ++ rest)) 0 = some d :=
      Candidate.find?_eq_some.mpr ⟨run, rest, rfl, fits⟩
    have behind : ∀ offset, Candidate.at? (d.anchor :: (run ++ rest)) (run.length + 1 + offset) =
        Candidate.at? rest offset := fun offset => by
      rw [Candidate.at?, Nat.add_right_comm, List.drop_succ_cons, List.drop_length_add_append,
        Candidate.at?]
    constructor
    · rintro (⟨rfl, rfl, rfl⟩ | ⟨offset, rfl, member⟩)
      · exact ⟨found, rfl⟩
      · rwa [behind]
    · rintro ⟨anchored, rfl⟩
      rcases Nat.lt_or_ge index (run.length + 1) with within | beyond
      · obtain _ | inside := index
        · obtain rfl := Option.some.inj (found.symm.trans anchored)
          exact .inl ⟨rfl, rfl, rfl⟩
        · have none := Candidate.at?_append_of_evaluates fits.evaluates rest
            (Nat.lt_of_succ_lt_succ within)
          exact absurd (none.symm.trans anchored) (Option.some_ne_none _).symm
      · obtain ⟨offset, rfl⟩ := Nat.exists_eq_add_of_le beyond
        exact .inr ⟨offset, rfl, behind offset ▸ anchored, rfl⟩
  | @plain rest _ s _ missing _ ih =>
    rw [Segment.mem_placed_cons]
    simp only [reduceCtorEq, and_false, false_or, ih, Segment.length]
    cases index <;> simp [Candidate.at?, missing, Nat.add_comm 1]

/-- Each run makes a walked list shorter by its length. -/
theorem Segmented.length_add {statements : List Node} {segments : List Segment}
    (cut : Segmented statements segments) :
    segments.length + ((Candidate.all statements).map fun c => c.run.length).sum =
      statements.length := by
  rw [cut.all]
  induction cut with
  | nil => rfl
  | pinned _ _ _ ih =>
    simp only [List.flatMap_cons, Segment.candidates, List.nil_append, List.length_cons]
    omega
  | enum _ fits _ ih =>
    simp only [List.flatMap_cons, Segment.candidates, List.map_append, List.sum_append,
      List.length_cons, List.length_append, fits.length_eq, List.map_cons, List.map_nil,
      List.sum_cons, List.sum_nil]
    omega
  | plain _ _ _ _ ih =>
    simp only [List.flatMap_cons, Segment.candidates, List.nil_append, List.length_cons]
    omega

namespace Gather

def listEvents (depth : Nat) (statements : List Node) : List Event :=
  (Segment.ofList statements).flatMap (Segment.events (result depth) (events depth))

/-- A rebuilt list is the list that it was exactly when nothing of it was enclosed. -/
theorem relist_eq_self_iff (depth : Nat) (statements : List Node) :
    Segment.relist (result depth) statements = statements ↔
      (listEvents depth statements).any Event.isEnclosed = false := by
  rw [Segment.relist, (Segment.segmented_ofList statements).map_after_eq_iff, listEvents]
  simp only [Segment.stays_iff (result_eq_self_iff depth), List.any_flatMap, List.any_eq_false,
    Bool.not_eq_true]

/-- A scan gives a copy exactly when something is enclosed. With a copy or without, what it leaves
is the list with one statement for each segment. -/
theorem settles_scan (depth : Nat) (statements : List Node) : ∃ copy,
    Settles (scan (node depth) statements) copy (listEvents depth statements) ∧
    copy.getD statements = Segment.relist (result depth) statements ∧
    (copy = none ↔ (listEvents depth statements).any Event.isEnclosed = false) := by
  have settled := (settles_list (settles_node depth) statements).map (extended [] none)
  rw [← scan_eq] at settled
  refine ⟨_, settled, ?_⟩
  have fresh : ((Segment.ofList statements).map (Segment.revision depth)).any Revision.isFresh =
      (listEvents depth statements).any Event.isEnclosed := by
    simp [listEvents, List.any_map, List.any_flatMap, Function.comp_def]
  have now : ((Segment.ofList statements).map (Segment.revision depth)).map Revision.now =
      Segment.relist (result depth) statements := by
    simp [Segment.relist, Function.comp_def]
  rw [extended, fresh, now]
  cases enclosed : (listEvents depth statements).any Event.isEnclosed with
  | true => simp
  | false => simpa using ((relist_eq_self_iff depth statements).mpr enclosed).symm

/-- The scan is exact. It encloses at the indices where an enum is recognised and at no others;
runs are apart, hold no import and end before the list does; for every visitor, one that fails
included, it does what the walk over segments does; and with any room left it leaves one statement
for each segment, so the list gets shorter by the runs. -/
theorem scan_exact (statements : List Node) :
    (∀ index anchor c, (index, .enum anchor c) ∈ Segment.placed 0 (Segment.ofList statements) ↔
      Candidate.at? statements index = some c ∧ anchor = c.anchor) ∧
    (∀ first second c d, Candidate.at? statements first = some c →
      Candidate.at? statements second = some d → first < second →
        first + c.run.length < second) ∧
    (∀ index c, Candidate.at? statements index = some c →
      index + c.run.length + 1 < statements.length ∧
        ∀ s ∈ (statements.drop index).take (c.run.length + 1), s.isImport = false) ∧
    (∀ visit, scan visit statements = (list visit statements >>= fun revisions =>
      pure (if revisions.any Revision.isFresh then some (revisions.map Revision.now) else none))) ∧
    (∀ depth p, ∃ copy q, (scan (node depth) statements).run p = .ok (copy, q) ∧
      copy.getD statements = Segment.relist (result depth) statements ∧
      (copy = none ↔ q.enclosed = p.enclosed) ∧
      (copy.getD statements).length +
        ((Candidate.all statements).map fun c => c.run.length).sum = statements.length) := by
  have cut := Segment.segmented_ofList statements
  refine ⟨fun index anchor c => ?_, fun _ _ _ _ => Candidate.run_before, fun _ _ found =>
    ⟨Candidate.run_inside found, Candidate.run_not_import found⟩, fun visit => scan_eq visit _,
    fun depth p => ?_⟩
  · have placed := cut.mem_placed_iff 0 index anchor c
    rwa [Nat.zero_add] at placed
  · obtain ⟨copy, settled, left, none⟩ := settles_scan depth statements
    refine ⟨copy, _, settled p, left, ?_, ?_⟩
    · rw [none, enclosed_record_eq_iff]
    · rw [left, Segment.relist, List.length_map]
      exact cut.length_add

def adjacent : List Node :=
  let setsElement := fun name => .expressionStatement (.assign (.elementAccessExpression
    (.identifier name) (.numericLiteral "0")) (.stringLiteral "A"))
  [.importNamed ["a"] "./a", .declare "E" (some .emptyObject), setsElement "E",
    .declare "F" (some .emptyObject), setsElement "F",
    .expressionStatement (.callExpression (.identifier "use") [.identifier "E", .identifier "F"])]

/-- The first run ends where the second enum starts, and four statements are left of six. -/
theorem scan_exact_adjacent : ∃ c d, Candidate.at? adjacent 1 = some c ∧
    Candidate.at? adjacent 3 = some d ∧ 1 + c.run.length < 3 ∧
    ∃ copy q, (scan (node maxTreeDepth) adjacent).run .start = .ok (copy, q) ∧
      (copy.getD adjacent).length + 2 = 6 := by
  obtain ⟨-, apart, -, -, ran⟩ := scan_exact adjacent
  obtain ⟨copy, q, scanned, -, -, length⟩ := ran maxTreeDepth .start
  exact ⟨_, _, rfl, rfl, apart 1 3 _ _ rfl rfl (by decide), copy, q, scanned, length⟩

end Gather
end PureEnum
