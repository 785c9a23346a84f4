import Mathlib.Data.List.Forall2
import PureEnum.Proofs.Settled

/-! Sharing: a visit gives back the very node it was given exactly when it encloses nothing, and
then only is what it gives equal to the node. The same holds of every statement of a walked list,
and of every part that moves into the statement built for an enum. -/
namespace PureEnum

theorem Edit.eq_kept_iff {e : Edit α} : e = .kept ↔ e.isFresh = false := by
  cases e <;> simp [isFresh]

def edited (nodes : List Node) (edits : List (Edit Node)) : List Node :=
  List.zipWith (fun n e => e.applyTo n) nodes edits

def revisions (nodes : List Node) (edits : List (Edit Node)) : List Revision :=
  List.zipWith Revision.mk nodes edits

namespace Gather

/-- What an edit says about the visit it came from, wherever in a run the visit takes place. -/
def Shares (depth : Nat) (n : Node) (e : Edit Node) : Prop :=
  ∀ p, ∃ q, (node depth n).run p = .ok (e, q) ∧
    (e = .kept ↔ q.enclosed = p.enclosed) ∧ (e = .kept ↔ e.applyTo n = n)

theorem edit_eq_kept_iff (depth : Nat) (n : Node) :
    edit depth n = .kept ↔ (events depth n).any Event.isEnclosed = false := by
  unfold edit
  split <;> simp_all

theorem enclosed_record_eq_iff (p : Progress) (noted : List Event) :
    (p.record noted).enclosed = p.enclosed ↔ noted.any Event.isEnclosed = false := by
  rw [Progress.enclosed_record, Nat.add_eq_left, List.countP_eq_zero, List.any_eq_false]

theorem shares_edit (depth : Nat) (n : Node) : Shares depth n (edit depth n) := by
  intro p
  refine ⟨_, settles_node depth n p, ?_, ?_⟩
  · rw [edit_eq_kept_iff, enclosed_record_eq_iff]
  · rw [edit_eq_kept_iff, applyTo_edit, result_eq_self_iff]

/-- What a walk says about a segment. A part of a run moves as its own visit left it, so a kept
part moves as the node it is. -/
def SegmentShares (depth : Nat) : Segment → Walked → Prop
  | .pinned s, w => w = ⟨⟨s, .kept⟩, []⟩
  | .plain s, w => w.revision.was = s ∧ Shares depth s w.revision.edit ∧ w.parts = []
  | .enum anchor c, w => ∃ run statement,
      List.Forall₂ (fun part r => r.was = part ∧ Shares depth part r.edit) c.run.parts w.parts ∧
      run.shape = c.run.shape ∧ run.parts = w.parts.map Revision.now ∧
      ({ c with run := run } : Candidate).enclosed = .ok statement ∧
      w.revision = ⟨anchor, .fresh statement⟩

theorem segmentShares_walked {statements : List Node} {segments : List Segment}
    (cut : Segmented statements segments) (depth : Nat) :
    List.Forall₂ (SegmentShares depth) segments (segments.map (Segment.walked depth)) := by
  induction cut with
  | nil => exact .nil
  | pinned _ _ _ ih => exact .cons rfl ih
  | enum c fits _ ih =>
    refine .cons ⟨c.run.map (result depth), _, ?_, c.shape_visited _, ?_,
      fits.enclosed_visited depth, rfl⟩ ih
    · exact List.forall₂_map_right_iff.mpr (List.forall₂_same.mpr fun part _ =>
        ⟨rfl, shares_edit depth part⟩)
    · rw [Run.parts_map, Segment.walked, Segment.moved, List.map_map]
      exact List.map_congr_left fun part _ => (now_revised depth part).symm
  | plain s _ _ _ ih => exact .cons ⟨rfl, shares_edit depth s, rfl⟩ ih

/-- A list of revisions is kept throughout exactly when its walk encloses nothing. -/
theorem revisions_kept_iff (depth : Nat) (segments : List Segment) :
    (∀ r ∈ segments.map (Segment.revision depth), r.edit = .kept) ↔
      (segments.flatMap (Segment.events (result depth) (events depth))).any
        Event.isEnclosed = false := by
  have kept : ∀ g : Segment, (g.revision depth).edit = .kept ↔
      (g.events (result depth) (events depth)).any Event.isEnclosed = false := fun g => by
    rw [Edit.eq_kept_iff, ← Segment.isFresh_revision, Revision.isFresh]
  simp only [List.forall_mem_map, kept, List.any_flatMap, List.any_eq_false, Bool.not_eq_true]

/-- Sharing is exact: for every visit, for a whole tree, for a bare list of statements, and for
each statement and each moved part of every list that is walked. -/
theorem sharing_exact :
    (∀ depth n, ∃ e, Shares depth n e) ∧
    (∀ t : Node, ∃ e q, t.gather.run .start = .ok (e, q) ∧
      (e = .kept ↔ q.enclosed = 0) ∧ (e = .kept ↔ e.applyTo t = t)) ∧
    (∀ statements, ∃ revisions q, (gatherList statements).run .start = .ok (revisions, q) ∧
      ((∀ r ∈ revisions, r.edit = .kept) ↔ q.enclosed = 0) ∧
      ((∀ r ∈ revisions, r.edit = .kept) ↔ revisions.map Revision.now = statements)) ∧
    (∀ depth statements p, ∃ walked q,
      (walk (node depth) statements).run p = .ok (walked, q) ∧
      (list (node depth) statements).run p = .ok (walked.map Walked.revision, q) ∧
      List.Forall₂ (SegmentShares depth) (Segment.ofList statements) walked) := by
  refine ⟨fun depth n => ⟨_, shares_edit depth n⟩, fun t => ?_, fun statements => ?_,
    fun depth statements p => ?_⟩
  · obtain ⟨q, ran, counted, equal⟩ := shares_edit maxTreeDepth t .start
    exact ⟨_, q, ran, counted, equal⟩
  · refine ⟨_, _, settles_list (settles_node maxTreeDepth) statements .start, ?_, ?_⟩
    · rw [revisions_kept_iff]
      exact (enclosed_record_eq_iff .start _).symm
    · have cut := Segment.segmented_ofList statements
      rw [revisions_kept_iff, List.any_flatMap, List.map_map]
      simp only [Function.comp_def, Segment.now_revision]
      rw [cut.map_after_eq_iff]
      simp only [Segment.stays_iff (result_eq_self_iff maxTreeDepth), List.any_eq_false,
        Bool.not_eq_true]
  · refine ⟨_, _, settles_walk (settles_node depth) statements p, ?_,
      segmentShares_walked (Segment.segmented_ofList statements) depth⟩
    rw [List.map_map]
    exact settles_list (settles_node depth) statements p

end Gather
end PureEnum
