import PureEnum.Proofs.Profile
import PureEnum.Proofs.Shape

/-! Gathering always succeeds. A visit gives the result of the plain pass, or keeps its node, and
notes one list of events whatever was noted before. It keeps its node exactly when it encloses
nothing, and then only does the result equal the node. -/
namespace PureEnum

namespace Segment

/-- What is noted of a segment: what its parts give, and then the enum. -/
def events (result : Node → Node) (inside : Node → List Event) (g : Segment) : List Event :=
  g.parts.flatMap inside ++ match g with
    | enum _ c => [.enclosed c.name c.shape c.run.length (c.visited result).statement]
    | pinned _ | plain _ => []

def Stays (f : Node → Node) : Segment → Prop
  | pinned _ => True
  | plain s => f s = s
  | enum .. => False

end Segment

namespace Gather

def events : (depth : Nat) → Node → List Event
  | 0, n => [.limit n.kind]
  | depth + 1, .scope head statements => head.children.flatMap (events depth) ++
      (Segment.ofList statements).flatMap (Segment.events (result depth) (events depth))
  | depth + 1, n => n.children.flatMap (events depth)

def edit (depth : Nat) (n : Node) : Edit Node :=
  if (events depth n).any Event.isEnclosed then .fresh (result depth n) else .kept

theorem events_of_not_scope {depth : Nat} {n : Node} (h : n.statements? = none) :
    events (depth + 1) n = n.children.flatMap (events depth) := by
  cases n with
  | scope => simp at h
  | _ => rfl

end Gather

/-- Walking a list never makes it longer, and each enum makes it shorter. -/
theorem Segmented.length_le {statements : List Node} {segments : List Segment}
    (cut : Segmented statements segments) : segments.length ≤ statements.length := by
  induction cut with
  | nil => exact Nat.le_refl _
  | pinned _ _ _ ih => exact Nat.succ_le_succ ih
  | enum _ _ _ ih =>
    simp only [List.length_cons, List.length_append]
    omega
  | plain s _ _ _ ih => exact Nat.succ_le_succ ih

theorem Segmented.map_after_eq_iff {statements : List Node} {segments : List Segment}
    (cut : Segmented statements segments) (f : Node → Node) :
    segments.map (Segment.after f) = statements ↔ ∀ g ∈ segments, g.Stays f := by
  induction cut with
  | nil => simp
  | pinned _ _ _ ih => simp [Segment.after, Segment.Stays, ih]
  | enum _ fits cut _ =>
    refine ⟨fun same => ?_, fun stays => absurd (stays _ List.mem_cons_self) id⟩
    have shorter := congrArg List.length same
    have nonempty := List.length_pos_iff.mpr fits.run_ne_nil
    have := cut.length_le
    simp only [List.length_map, List.length_cons, List.length_append] at shorter
    omega
  | plain s _ _ _ ih => simp [Segment.after, Segment.Stays, ih]

theorem Layer.node_eq_iff {l : Layer Node} {n : Node} : l.node = n ↔ l = n.layer := by
  constructor
  · rintro rfl
    exact l.layer_node.symm
  · rintro rfl
    exact n.node_layer

theorem ScopeHead.map_eq_self_iff {f : Node → Node} {head : ScopeHead Node} :
    head.map f = head ↔ ∀ c ∈ head.children, f c = c := by
  cases head <;> simp [map, children]

/-- A segment stays as it is exactly when nothing of it was enclosed. -/
theorem Segment.stays_iff {result : Node → Node} {inside : Node → List Event}
    (same : ∀ c, result c = c ↔ (inside c).any Event.isEnclosed = false) (g : Segment) :
    g.Stays result ↔ (g.events result inside).any Event.isEnclosed = false := by
  cases g with
  | pinned s => simp [Stays, events, parts]
  | plain s => simpa [Stays, events, parts] using same s
  | enum anchor c => simp [Stays, events, Event.isEnclosed]

namespace Gather

/-- A result equals its node exactly when nothing was enclosed on the way. -/
theorem result_eq_self_iff (depth : Nat) (n : Node) :
    result depth n = n ↔ (events depth n).any Event.isEnclosed = false := by
  induction depth generalizing n with
  | zero => simp [result, events, Event.isEnclosed]
  | succ depth ih =>
    rcases n.scope_or with ⟨head, statements, rfl⟩ | h
    · have cut := Segment.segmented_ofList statements
      have stays := fun g => Segment.stays_iff ih g
      change Node.scope _ _ = Node.scope _ _ ↔ _
      rw [Node.scope.injEq, ScopeHead.map_eq_self_iff, Segment.relist,
        cut.map_after_eq_iff, events, List.any_append, List.any_flatMap, List.any_flatMap]
      simp only [ih, stays, Bool.or_eq_false_iff, List.any_eq_false, Bool.not_eq_true]
    · rw [result, Node.rebuild_of_not_scope h, Layer.node_eq_iff, Layer.map_eq_self_iff,
        events_of_not_scope h, List.any_flatMap]
      simp only [ih, List.any_eq_false, Bool.not_eq_true]
      rfl

@[simp] theorem applyTo_edit (depth : Nat) (n : Node) :
    (edit depth n).applyTo n = result depth n := by
  unfold edit
  split
  case isTrue => rfl
  case isFalse none => exact ((result_eq_self_iff depth n).mpr (by simpa using none)).symm

@[simp] theorem isFresh_edit (depth : Nat) (n : Node) :
    (edit depth n).isFresh = (events depth n).any Event.isEnclosed := by
  unfold edit
  split <;> simp_all [Edit.isFresh]

def revised (depth : Nat) (n : Node) : Revision := ⟨n, edit depth n⟩

@[simp] theorem now_revised (depth : Nat) (n : Node) : (revised depth n).now = result depth n :=
  applyTo_edit depth n

@[simp] theorem isFresh_revised (depth : Nat) (n : Node) :
    (revised depth n).isFresh = (events depth n).any Event.isEnclosed := isFresh_edit depth n

end Gather

theorem Enum.result_wrapperCallOf (depth : Nat) (modifiers : Modifiers) (label : Option String)
    (parameter : Parameter Node) (body : Node) (arguments : List Node) :
    Gather.result depth (wrapperCallOf modifiers label parameter body arguments) =
      wrapperCallOf modifiers label (parameter.map (Gather.result (depth - 1 - 1 - 1)))
        (Gather.result (depth - 1 - 1 - 1) body) (arguments.map (Gather.result (depth - 1))) := by
  rcases depth with _ | _ | _ | depth
  · simp [Gather.result_zero, Parameter.map_id]
  · simp only [Nat.zero_add, Nat.sub_self, Nat.zero_sub, Gather.result_zero, Parameter.map_id]
    rfl
  · simp only [Nat.reduceAdd, Nat.reduceSub, Gather.result_zero, Parameter.map_id]
    rfl
  · rfl

/-- The call of a recognised wrapper is still taken apart after a visit. -/
theorem Candidate.Fits.enclosed_visited {c : Candidate} {run rest : List Node}
    (fits : c.Fits run rest) (depth : Nat) : (c.visited (Gather.result depth)).enclosed =
      .ok (c.visited (Gather.result depth)).statement := by
  suffices built : ∃ statement, (c.visited (Gather.result depth)).enclosed = .ok statement by
    obtain ⟨statement, built⟩ := built
    rw [Candidate.statement, built]
  cases fits with
  | flat => exact ⟨_, rfl⟩
  | fixed => exact ⟨_, rfl⟩
  | wrapper found =>
    obtain ⟨e, modifiers, label, initializer, head, statements, arguments, -, -, rfl, -⟩ :=
      Enum.wrapperCall?_eq_some.mp found
    obtain ⟨inner, body⟩ : ∃ inner,
        (Gather.result (depth - 1 - 1 - 1) (.scope head statements)).statements? = some inner := by
      cases depth - 1 - 1 - 1 <;> exact ⟨_, Node.statements?_scope ..⟩
    simp only [visited, Run.map, enclosed, Enum.result_wrapperCallOf]
    simp [Enum.wrapperCallOf, Enum.wrapperCall, body]

namespace Segment

def revision (depth : Nat) : Segment → Revision
  | pinned s => ⟨s, .kept⟩
  | plain s => Gather.revised depth s
  | enum anchor c => ⟨anchor, .fresh (c.visited (Gather.result depth)).statement⟩

def moved (depth : Nat) : Segment → List Revision
  | pinned _ | plain _ => []
  | enum _ c => c.run.parts.map (Gather.revised depth)

def walked (depth : Nat) (g : Segment) : Walked := ⟨g.revision depth, g.moved depth⟩

end Segment

namespace Gather

theorem settles_noteLimit (kind : Kind) : Settles (noteLimit kind) () [.limit kind] := fun _ => rfl

theorem settles_noteEnclosed (c : Candidate) (statement : Node) :
    Settles (noteEnclosed c statement) () [.enclosed c.name c.shape c.run.length statement] :=
  fun _ => rfl

theorem settles_lift (value : α) :
    Settles (liftM (Except.ok value : Except WrapError α)) value [] :=
  fun _ => rfl

section Level

variable {depth : Nat} (visits : ∀ n, Settles (node depth n) (edit depth n) (events depth n))

include visits

theorem settles_ofVisit (n : Node) :
    Settles (Revision.ofVisit (node depth) n) (revised depth n) (events depth n) :=
  (visits n).map (Revision.mk n)

theorem settles_run (run : Run Node) : Settles (run.traverse (Revision.ofVisit (node depth)))
    (run.map (revised depth)) (run.parts.flatMap (events depth)) := by
  cases run with
  | wrapper call =>
    rw [Run.parts, List.flatMap_singleton]
    exact (settles_ofVisit visits call).map Run.wrapper
  | flat members =>
    exact (settles_mapM members fun n _ => settles_ofVisit visits n).map Run.flat
  | fixed members =>
    exact (settles_mapM members fun n _ => settles_ofVisit visits n).map Run.fixed

theorem settles_segment {statements : List Node} {segments : List Segment}
    (cut : Segmented statements segments) : ∀ g ∈ segments, Settles (segment (node depth) g)
      (g.walked depth) (g.events (result depth) (events depth)) := by
  induction cut with
  | nil => simp
  | pinned _ _ _ ih =>
    refine List.forall_mem_cons.mpr ⟨settles_pure _, ih⟩
  | enum c fits _ ih =>
    refine List.forall_mem_cons.mpr ⟨(settles_run visits c.run).bind ?_, ih⟩
    have now : (c.run.map (revised depth)).map Revision.now = c.run.map (result depth) := by
      rw [Run.map_map]
      exact congrArg c.run.map (funext (now_revised depth))
    have parts : (c.run.map (revised depth)).parts = c.run.parts.map (revised depth) :=
      Run.parts_map ..
    have noted := settles_noteEnclosed (c.visited (result depth))
      (c.visited (result depth)).statement
    rw [Candidate.shape_visited, Candidate.length_visited] at noted
    rw [now, parts]
    change Settles (liftM (c.visited (result depth)).enclosed >>= _) _ _
    rw [fits.enclosed_visited depth]
    exact (settles_lift _).bind (noted.map fun _ => _)
  | plain s _ _ _ ih =>
    have settled := (settles_ofVisit visits s).map (Walked.mk · [])
    refine List.forall_mem_cons.mpr ⟨?_, ih⟩
    change Settles (segment _ _) _ ([s].flatMap (events depth) ++ [])
    rw [List.flatMap_singleton, List.append_nil]
    exact settled

theorem settles_walk (statements : List Node) : Settles (walk (node depth) statements)
    ((Segment.ofList statements).map (Segment.walked depth))
    ((Segment.ofList statements).flatMap (Segment.events (result depth) (events depth))) :=
  settles_mapM _ (settles_segment visits (Segment.segmented_ofList statements))

theorem settles_list (statements : List Node) : Settles (list (node depth) statements)
    ((Segment.ofList statements).map (Segment.revision depth))
    ((Segment.ofList statements).flatMap (Segment.events (result depth) (events depth))) := by
  have settled := (settles_walk visits statements).map (List.map Walked.revision)
  rwa [List.map_map] at settled

theorem settles_head (scopeHead : ScopeHead Node) : Settles (head (node depth) scopeHead)
    (scopeHead.map (revised depth))
    (scopeHead.children.flatMap (events depth)) := by
  cases scopeHead with
  | caseOf test =>
    rw [ScopeHead.children, List.flatMap_singleton]
    exact (visits test).map fun e => ScopeHead.caseOf (Revision.mk test e)
  | _ => exact settles_pure _

end Level

end Gather

namespace ScopeHead

theorem isFresh_map (depth : Nat) (head : ScopeHead Node) :
    (head.map (Gather.revised depth)).isFresh =
      (head.children.flatMap (Gather.events depth)).any Event.isEnclosed := by
  cases head <;> simp [map, isFresh, children]

theorem now_map (depth : Nat) (head : ScopeHead Node) :
    (head.map (Gather.revised depth)).now = head.map (Gather.result depth) := by
  cases head <;> simp [map, now]

end ScopeHead

namespace Segment

@[simp] theorem now_revision (depth : Nat) (g : Segment) :
    (g.revision depth).now = g.after (Gather.result depth) := by
  cases g with
  | pinned | enum => rfl
  | plain => simp [revision, after]

@[simp] theorem isFresh_revision (depth : Nat) (g : Segment) : (g.revision depth).isFresh =
    (g.events (Gather.result depth) (Gather.events depth)).any Event.isEnclosed := by
  cases g with
  | pinned => rfl
  | plain => simp [revision, events, parts]
  | enum => simp [revision, Revision.isFresh, Edit.isFresh, events, Event.isEnclosed]

end Segment

namespace Gather

theorem ofScope_eq_edit (depth : Nat) (head : ScopeHead Node) (statements : List Node) :
    Edit.ofScope (head.map (revised depth))
      ((Segment.ofList statements).map (Segment.revision depth)) =
        edit (depth + 1) (.scope head statements) := by
  have fresh : ((head.map (revised depth)).isFresh ||
      ((Segment.ofList statements).map (Segment.revision depth)).any Revision.isFresh) =
      (events (depth + 1) (.scope head statements)).any Event.isEnclosed := by
    rw [ScopeHead.isFresh_map, events, List.any_append, List.any_map, List.any_flatMap]
    simp [Function.comp_def]
  rw [Edit.ofScope, fresh, ScopeHead.now_map, List.map_map, edit]
  simp [Function.comp_def, result, Node.rebuild, Segment.relist]

theorem revised_eq_edit (depth : Nat) {n : Node} (h : n.statements? = none) :
    (n.layer.map (revised depth)).revised = edit (depth + 1) n := by
  rw [Layer.revised, Layer.children_map, Layer.map_map, edit, events_of_not_scope h, result,
    Node.rebuild_of_not_scope h, List.any_map, List.any_flatMap, Node.children]
  simp [Function.comp_def]

/-- Every visit settles, whatever the room left and the node. -/
theorem settles_node (depth : Nat) (n : Node) :
    Settles (node depth n) (edit depth n) (events depth n) := by
  induction depth generalizing n with
  | zero => exact (settles_noteLimit n.kind).map fun _ => Edit.kept
  | succ depth ih =>
    rcases n.scope_or with ⟨scopeHead, statements, rfl⟩ | h
    · rw [← ofScope_eq_edit]
      change Settles (head (node depth) scopeHead >>= fun h =>
        list (node depth) statements >>= fun l => pure (Edit.ofScope h l)) _ _
      exact (settles_head ih scopeHead).bind ((settles_list ih statements).map _)
    · rw [← revised_eq_edit depth h, events_of_not_scope h]
      have revised : layer (node depth) n = n.reviseChildren (node depth) := by
        cases n with
        | scope => simp at h
        | _ => rfl
      rw [node, revised]
      have settled := settles_layer n.layer fun c _ => settles_ofVisit ih c
      exact settled.map Layer.revised

end Gather
end PureEnum
