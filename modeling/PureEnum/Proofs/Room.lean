import PureEnum.Proofs.Reach
import PureEnum.Proofs.Sharing

/-! Room: a visit that does not run out of it would do the same with more. So a scope whose visit
stays within the limit is gathered as its test and its bare list of statements are, though these
are each visited with one level more to spare. -/
namespace PureEnum

section Congruence

variable {f g : Node → Node}

theorem Run.map_congr {run : Run Node} (same : ∀ c ∈ run.parts, f c = g c) :
    run.map f = run.map g := by
  cases run with
  | wrapper call => exact congrArg wrapper (same call List.mem_cons_self)
  | flat members => exact congrArg flat (List.map_congr_left same)
  | fixed members => exact congrArg fixed (List.map_congr_left same)

theorem ScopeHead.map_congr {head : ScopeHead Node} (same : ∀ c ∈ head.children, f c = g c) :
    head.map f = head.map g := by
  cases head with
  | caseOf test => exact congrArg caseOf (same test List.mem_cons_self)
  | _ => rfl

namespace Segment

variable {segment : Segment} (same : ∀ c ∈ segment.parts, f c = g c)

include same

theorem after_congr : segment.after f = segment.after g := by
  cases segment with
  | pinned s => rfl
  | plain s => exact same s List.mem_cons_self
  | enum anchor c => rw [after, after, Candidate.visited, Candidate.visited, Run.map_congr same]

theorem events_congr {first second : Node → List Event}
    (noted : ∀ c ∈ segment.parts, first c = second c) :
    segment.events f first = segment.events g second := by
  have inside := List.flatMap_congr noted
  have statement := after_congr same
  cases segment with
  | pinned s | plain s => rw [events, events, inside]
  | enum anchor c =>
    rw [after, after] at statement
    rw [events, events, inside, statement]

end Segment

end Congruence

namespace Gather

/-- A visit that does not run out of room does the same with more. -/
theorem Reaches.more {depth more : Nat} {n : Node} (reaches : Reaches depth n)
    (enough : depth ≤ more) : result more n = result depth n ∧ events more n = events depth n := by
  induction depth generalizing more n with
  | zero => exact reaches.elim
  | succ depth ih =>
    obtain ⟨more, rfl⟩ : ∃ less, more = less + 1 := ⟨more - 1, by omega⟩
    have below : ∀ c ∈ n.handed, result more c = result depth c ∧ events more c = events depth c :=
      fun c handed => ih (reaches c handed) (by omega)
    rcases n.scope_or with ⟨head, statements, rfl⟩ | own
    · obtain ⟨inHead, inParts⟩ := List.forall_mem_append.mp below
      have parts := List.forall_mem_flatMap.mp inParts
      constructor
      · have test := ScopeHead.map_congr fun c member => (inHead c member).1
        have list : Segment.relist (result more) statements =
            Segment.relist (result depth) statements := List.map_congr_left fun g member =>
          Segment.after_congr fun c inside => (parts g member c inside).1
        rw [result, result, Node.rebuild, Node.rebuild, test, list]
      · have test := List.flatMap_congr fun c member => (inHead c member).2
        have list : ∀ g ∈ Segment.ofList statements, g.events (result more) (events more) =
            g.events (result depth) (events depth) := fun g member =>
          Segment.events_congr (fun c inside => (parts g member c inside).1)
            fun c inside => (parts g member c inside).2
        rw [events, events, test, List.flatMap_congr list]
    · rw [Node.handed_of_not_scope own] at below
      constructor
      · have inside := Layer.map_congr (l := n.layer) fun c member => (below c member).1
        rw [result, result, Node.rebuild_of_not_scope own, Node.rebuild_of_not_scope own]
        exact congrArg Layer.node inside
      · rw [events_of_not_scope own, events_of_not_scope own,
          List.flatMap_congr fun c member => (below c member).2]

/-- With room to spare, a scope is gathered as its test and its bare list are. -/
theorem Reaches.scope {depth : Nat} {head : ScopeHead Node} {statements : List Node}
    (reaches : Reaches depth (.scope head statements)) :
    result depth (.scope head statements) =
      .scope (head.map (result depth)) (Segment.relist (result depth) statements) ∧
    events depth (.scope head statements) = head.children.flatMap (events depth) ++
      (Segment.ofList statements).flatMap (Segment.events (result depth) (events depth)) := by
  obtain ⟨sameResult, sameEvents⟩ := reaches.more (Nat.le_succ depth)
  exact ⟨sameResult.symm, sameEvents.symm⟩

/-- A scope is gathered as its bare list of statements is, when its visit meets no limit: the
statements become the same, and the scope is kept exactly when they all are. A scope without a
test keeps everything else and notes nothing else; the test of a case is gathered first, as a tree
of its own, and the rest is what the list notes. -/
theorem gather_scope (head : ScopeHead Node) (statements : List Node) : ∃ e p revisions q,
    (Node.scope head statements).gather.run .start = .ok (e, p) ∧
    (gatherList statements).run .start = .ok (revisions, q) ∧
    ((∀ event ∈ p.events, event.isEnclosed) →
      (head.children = [] →
        e.applyTo (.scope head statements) = .scope head (revisions.map Revision.now) ∧
        (e = .kept ↔ ∀ r ∈ revisions, r.edit = .kept) ∧ p = q) ∧
      ∀ test, head = .caseOf test → ∃ e' p', test.gather.run .start = .ok (e', p') ∧
        e.applyTo (.scope head statements) =
          .scope (.caseOf (e'.applyTo test)) (revisions.map Revision.now) ∧
        (e = .kept ↔ e' = .kept ∧ ∀ r ∈ revisions, r.edit = .kept) ∧
        p = ⟨p'.enclosed + q.enclosed, p'.events ++ q.events⟩) := by
  refine ⟨_, _, _, _, settles_node maxTreeDepth _ .start,
    settles_list (settles_node maxTreeDepth) statements .start, fun inside => ?_⟩
  have reaches : Reaches maxTreeDepth (.scope head statements) := (reaches_iff _ _).mpr
    fun event noted => inside event ((mem_events_start _).mpr noted)
  obtain ⟨sameResult, sameEvents⟩ := reaches.scope
  have list : ((Segment.ofList statements).map (Segment.revision maxTreeDepth)).map Revision.now =
      Segment.relist (result maxTreeDepth) statements := by
    rw [List.map_map]
    exact List.map_congr_left fun g _ => g.now_revision maxTreeDepth
  rw [applyTo_edit, edit_eq_kept_iff, revisions_kept_iff, sameResult, sameEvents, list,
    List.any_append, Bool.or_eq_false_iff]
  constructor
  · intro bare
    cases head with
    | caseOf test => exact absurd bare (List.cons_ne_nil _ _)
    | _ => exact ⟨rfl, and_iff_right rfl, rfl⟩
  · rintro test rfl
    refine ⟨_, _, settles_node maxTreeDepth test .start, ?_, ?_, ?_⟩
    · rw [applyTo_edit]
      rfl
    · rw [edit_eq_kept_iff, ScopeHead.children, List.flatMap_singleton]
    · rw [ScopeHead.children, List.flatMap_singleton, Progress.start_record_append]

def guarded : Node :=
  let filled := fun name => [.declare name (some .emptyObject), .expressionStatement (.assign
    (.elementAccessExpression (.identifier name) (.numericLiteral "0")) (.stringLiteral "A"))]
  .scope (.caseOf (.callExpression (.parenthesizedExpression (.function none []
      (filled "E" ++ [.returnStatement (some (.identifier "E"))]))) []))
    (filled "F" ++ [.breakStatement none])

/-- The enum of the test is noted first. -/
theorem gather_scope_guarded : ∃ e p, guarded.gather.run .start = .ok (e, p) ∧
    (∀ event ∈ p.events, event.isEnclosed) ∧ ∃ p' q : Progress, p =
      ⟨p'.enclosed + q.enclosed, p'.events ++ q.events⟩ ∧
      p'.events.toList.filterMap Event.outline? = [("E", .flatIndexed, 1)] ∧
      q.events.toList.filterMap Event.outline? = [("F", .flatIndexed, 1)] := by
  obtain ⟨e, p, revisions, q, ran, listed, agree⟩ := gather_scope (.caseOf (.callExpression
    (.parenthesizedExpression (.function none [] [.declare "E" (some .emptyObject), _, _])) []))
    [.declare "F" (some .emptyObject), _, .breakStatement none]
  have inside : ∀ event ∈ p.events, event.isEnclosed := by
    obtain ⟨-, rfl⟩ := Prod.mk.inj (Except.ok.inj ((settles_node _ _ _).symm.trans ran))
    have noted : (events maxTreeDepth guarded).all Event.isEnclosed := by decide
    intro event member
    exact List.all_eq_true.mp noted event ((mem_events_start _).mp member)
  obtain ⟨e', p', tested, -, -, sum⟩ := (agree inside).2 _ rfl
  refine ⟨e, p, ran, inside, p', q, sum, ?_, ?_⟩
  · obtain ⟨-, rfl⟩ := Prod.mk.inj (Except.ok.inj ((settles_node _ _ _).symm.trans tested))
    rw [toList_events_start]
    rfl
  · have settled := settles_list (settles_node maxTreeDepth)
    obtain ⟨-, rfl⟩ := Prod.mk.inj (Except.ok.inj ((settled _ .start).symm.trans listed))
    rw [toList_events_start]
    rfl

end Gather
end PureEnum
