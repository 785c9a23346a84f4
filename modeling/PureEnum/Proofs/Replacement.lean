import PureEnum.Proofs.Scan
import PureEnum.Proofs.Synthesis

/-! Replacement: what stands in the place of an enum. There is one form for all shapes, the anchor
over a call that is marked pure; the shapes differ in the function that is called. Statements move
into it as their visits leave them, so those that nothing was enclosed in are the ones that stood
behind the anchor. -/
namespace PureEnum

/-- The anchor with one initializer, a function called at once, for a minifier to drop. -/
def Candidate.anchored (c : Candidate) (modifiers : Modifiers) (label : Option String)
    (parameters : List (Parameter Node)) (body arguments : List Node) : Node :=
  .variableStatement c.modifiers c.keyword [⟨c.declaration.name,
    some (.annotatedExpression ⟨"@__PURE__", true⟩ (.parenthesizedExpression (.callExpression
      (.parenthesizedExpression (.functionExpression modifiers label parameters
        (.scope .block body))) arguments)))⟩]

namespace Gather

/-- Visits of a node, wherever they take place, enclose nothing. -/
def Quiet (depth : Nat) (n : Node) : Prop :=
  ∀ p e q, (node depth n).run p = .ok (e, q) → q.enclosed = p.enclosed

/-- The statement that takes the place of an enum, the parts of the run that moved into it, and the
edits of the statements in its function. Members are the parts themselves. The body of a wrapper
stands three nodes below the call, its one part, so that much room is gone by then. -/
inductive Replaces (depth : Nat) (c : Candidate) (parts : List Revision)
    (edits : List (Edit Node)) (statement : Node) : Prop where
  | members {statements : List Node} {initializer : Node}
      (run : c.run = .flat statements ∨ c.run = .fixed statements)
      (declared : c.declaration.initializer = some initializer)
      (visits : List.Forall₂ (Shares depth) statements edits)
      (moved : parts = revisions statements edits)
      (built : statement = c.anchored .empty none [] (
        .variableStatement .empty .var [⟨.identifier c.name, some initializer⟩] ::
          (edited statements edits ++ [.returnStatement (some (.identifier c.name))])) [])
  | wrapper {modifiers : Modifiers} {label : Option String} {initializer visited : Option Node}
      {head after : ScopeHead Node} {statements arguments given : List Node} {call : Node}
      {e : Edit Node} (run : c.run = .wrapper call)
      (was : call = Enum.wrapperCallOf modifiers label ⟨.identifier c.name, initializer, false⟩
        (.scope head statements) arguments)
      (visit : Shares depth call e)
      (moved : parts = [⟨call, e⟩])
      (now : e.applyTo call = Enum.wrapperCallOf modifiers label
        ⟨.identifier c.name, visited, false⟩ (.scope after (edited statements edits)) given)
      (visits : List.Forall₂ (Shares (depth - 4)) statements edits)
      (built : statement = c.anchored modifiers label [⟨.identifier c.name, visited, false⟩]
        (edited statements edits ++ [.returnStatement (some (.identifier c.name))])
        [.objectLiteralExpression []])

theorem quiet_iff {depth : Nat} {n : Node} :
    Quiet depth n ↔ (events depth n).any Event.isEnclosed = false := by
  constructor
  · intro quiet
    exact (enclosed_record_eq_iff .start _).mp (quiet .start _ _ (settles_node depth n .start))
  · intro none p e q ran
    obtain ⟨-, rfl⟩ := Prod.mk.inj (Except.ok.inj ((settles_node depth n p).symm.trans ran))
    exact (enclosed_record_eq_iff p _).mpr none

theorem edit_of_quiet {depth : Nat} {n : Node} (quiet : Quiet depth n) : edit depth n = .kept :=
  (edit_eq_kept_iff depth n).mpr (quiet_iff.mp quiet)

theorem edited_edits (depth : Nat) (statements : List Node) :
    edited statements (statements.map (edit depth)) = statements.map (result depth) := by
  rw [edited, List.zipWith_map_right, List.zipWith_self]
  exact List.map_congr_left fun s _ => applyTo_edit depth s

theorem revisions_edits (depth : Nat) (statements : List Node) :
    revisions statements (statements.map (edit depth)) = statements.map (revised depth) := by
  rw [revisions, List.zipWith_map_right, List.zipWith_self]
  rfl

theorem shares_edits (depth : Nat) (statements : List Node) :
    List.Forall₂ (Shares depth) statements (statements.map (edit depth)) :=
  List.forall₂_map_right_iff.mpr (List.forall₂_same.mpr fun s _ => shares_edit depth s)

/-- A call that nothing is enclosed in keeps each statement of its body. -/
theorem edits_of_quiet_call {name : String} {depth : Nat} {modifiers : Modifiers}
    {label : Option String} {parameter : Parameter Node} {head : ScopeHead Node}
    {members arguments : List Node} (reverse : ∀ s ∈ members, Enum.setsReverse name s)
    (quiet : Quiet depth
      (Enum.wrapperCallOf modifiers label parameter (.scope head members) arguments)) :
    ∀ e ∈ members.map (edit (depth - 4)), e = .kept := by
  have same := (result_eq_self_iff depth _).mpr (quiet_iff.mp quiet)
  obtain ⟨visited, body⟩ := Enum.result_scope reverse head (depth - 1 - 1 - 1)
  rw [Enum.result_wrapperCallOf, body] at same
  simp only [Enum.wrapperCallOf, Node.callExpression.injEq, Node.parenthesizedExpression.injEq,
    Node.functionExpression.injEq, Node.scope.injEq] at same
  obtain ⟨⟨-, -, -, -, unchanged⟩, -⟩ := same
  intro e member
  obtain ⟨s, inside, rfl⟩ := List.mem_map.mp member
  apply (edit_eq_kept_iff _ s).mpr
  apply (result_eq_self_iff _ s).mp
  exact List.map_inj_left.mp (unchanged.trans members.map_id.symm) s inside

/-- A wrapper whose call was visited keeps its form down to the body, where the members stand. -/
theorem replaces_wrapper {c : Candidate} {modifiers : Modifiers} {label : Option String}
    {initializer : Option Node} {head : ScopeHead Node} {members arguments : List Node}
    (run : c.run = .wrapper (Enum.wrapperCallOf modifiers label
      ⟨.identifier c.name, initializer, false⟩ (.scope head members) arguments))
    (reverse : ∀ s ∈ members, Enum.setsReverse c.name s) (depth : Nat) :
    Replaces depth c (c.run.parts.map (revised depth)) (members.map (edit (depth - 4)))
      (c.visited (result depth)).statement := by
  obtain ⟨after, body⟩ := Enum.result_scope reverse head (depth - 1 - 1 - 1)
  have visited : result depth (Enum.wrapperCallOf modifiers label
      ⟨.identifier c.name, initializer, false⟩ (.scope head members) arguments) =
        Enum.wrapperCallOf modifiers label
          ⟨.identifier c.name, initializer.map (result (depth - 1 - 1 - 1)), false⟩
          (.scope after (edited members (members.map (edit (depth - 4)))))
          (arguments.map (result (depth - 1))) := by
    rw [Enum.result_wrapperCallOf, body, Parameter.map, result_identifier, edited_edits]
    rfl
  refine .wrapper run rfl (shares_edit depth _) (by rw [run]; rfl)
    ((applyTo_edit depth _).trans visited) (shares_edits _ members) ?_
  simp only [Candidate.visited, run, Run.map, visited]
  simp only [Candidate.statement, Candidate.enclosed, Enum.wrapperCallOf, Enum.wrapperCall_scope]
  rfl

/-- A recognised enum becomes the statement in its form. The cases are those of recognition. -/
theorem replaces_statement {c : Candidate} {run rest : List Node} (fits : c.Fits run rest)
    (depth : Nat) : ∃ edits, Replaces depth c (c.run.parts.map (revised depth)) edits
        (c.visited (result depth)).statement ∧
      ((∀ part ∈ c.run.parts, Quiet depth part) → ∀ e ∈ edits, e = .kept) := by
  have quietMembers : ∀ members : List Node, (∀ s ∈ members, Quiet depth s) →
      ∀ e ∈ members.map (edit depth), e = .kept := by
    intro members quiet e member
    obtain ⟨s, inside, rfl⟩ := List.mem_map.mp member
    exact edit_of_quiet (quiet s inside)
  cases fits with
  | flat =>
    refine ⟨run.map (edit depth), .members (.inl rfl) rfl (shares_edits depth run)
      (revisions_edits depth run).symm ?_, quietMembers run⟩
    rw [edited_edits]
    rfl
  | fixed =>
    refine ⟨run.map (edit depth), .members (.inr rfl) rfl (shares_edits depth run)
      (revisions_edits depth run).symm ?_, quietMembers run⟩
    rw [edited_edits]
    rfl
  | wrapper found =>
    obtain ⟨_, modifiers, label, initializer, head, members, arguments, -, -, rfl, reverse⟩ :=
      Enum.wrapperCall?_eq_some.mp found
    exact ⟨_, replaces_wrapper rfl reverse depth, fun quiet =>
      edits_of_quiet_call reverse (quiet _ List.mem_cons_self)⟩

theorem placed_map_snd (index : Nat) (segments : List Segment) :
    (Segment.placed index segments).map Prod.snd = segments := by
  induction segments generalizing index with
  | nil => rfl
  | cons g segments ih => rw [Segment.placed, List.map_cons, ih]

/-- Every enum that is rewritten becomes one canonical statement, wherever in a run its list is
walked. The statement stands where the enum stood among the segments of the list, and it is in the
form `Replaces` gives for the shape, built from the statements that `Fits` finds behind the anchor.
When nothing is enclosed inside of these, every one of them is in the function as it stood. -/
theorem enclosed_canonical (depth : Nat) (statements : List Node) (p : Progress) :
    ∃ walked q, (walk (node depth) statements).run p = .ok (walked, q) ∧
      (list (node depth) statements).run p = .ok (walked.map Walked.revision, q) ∧
      ∀ index c, Candidate.at? statements index = some c →
        ∃ place : Nat, ∃ parts edits statement,
          (∃ run rest, statements.drop index = c.anchor :: (run ++ rest) ∧ c.Fits run rest) ∧
          (Segment.placed 0 (Segment.ofList statements))[place]? =
            some (index, .enum c.anchor c) ∧
          walked[place]? = some ⟨⟨c.anchor, .fresh statement⟩, parts⟩ ∧
          Replaces depth c parts edits statement ∧
          ((∀ part ∈ c.run.parts, Quiet depth part) → ∀ e ∈ edits, e = .kept) := by
  have listed := settles_list (settles_node depth) statements p
  refine ⟨_, _, settles_walk (settles_node depth) statements p, by rwa [List.map_map],
    fun index c found => ?_⟩
  obtain ⟨run, rest, behind, fits⟩ := Candidate.drop_of_at? found
  obtain ⟨edits, replaces, quiet⟩ := replaces_statement fits depth
  have cut := Segment.segmented_ofList statements
  have member := (cut.mem_placed_iff 0 index c.anchor c).mpr ⟨found, rfl⟩
  rw [Nat.zero_add] at member
  obtain ⟨place, atPlace⟩ := List.mem_iff_getElem?.mp member
  have segment : (Segment.ofList statements)[place]? = some (.enum c.anchor c) := by
    rw [← placed_map_snd 0 (Segment.ofList statements), List.getElem?_map, atPlace]
    rfl
  refine ⟨place, _, edits, _, ⟨run, rest, behind, fits⟩, atPlace, ?_, replaces, quiet⟩
  rw [List.getElem?_map, segment]
  rfl

def labelled : List Node :=
  let member := Node.expressionStatement (.assign (.elementAccessExpression (.identifier "E")
    (.assign (.elementAccessExpression (.identifier "E") (.stringLiteral "A"))
      (.numericLiteral "0"))) (.stringLiteral "A"))
  [.declareWith ⟨1⟩ .let "E" none,
    .expressionStatement (Enum.wrapperCallOf ⟨8⟩ (some "fill")
      ⟨.identifier "E", some .nullLiteral, false⟩ (.block [member]) [.identifier "E"]),
    .expressionStatement (.callExpression (.identifier "use") [.identifier "E"])]

/-- Nothing is enclosed in its call, so the one member moves as the node it is. -/
theorem enclosed_canonical_labelled : ∃ c, Candidate.at? labelled 0 = some c ∧
    (∀ part ∈ c.run.parts, Quiet maxTreeDepth part) ∧
    ∃ walked q, (walk (node maxTreeDepth) labelled).run .start = .ok (walked, q) ∧
      (list (node maxTreeDepth) labelled).run .start = .ok (walked.map Walked.revision, q) ∧
      ∃ place : Nat, ∃ parts edits statement,
        walked[place]? = some ⟨⟨c.anchor, .fresh statement⟩, parts⟩ ∧
        Replaces maxTreeDepth c parts edits statement ∧ ∀ e ∈ edits, e = .kept := by
  obtain ⟨c, found⟩ : ∃ c, Candidate.at? labelled 0 = some c := ⟨_, rfl⟩
  have quiet : ∀ part ∈ c.run.parts, Quiet maxTreeDepth part := by
    obtain rfl := Option.some.inj found
    intro part member
    obtain rfl := List.mem_singleton.mp member
    exact quiet_iff.mpr rfl
  obtain ⟨walked, q, ran, listed, canonical⟩ := enclosed_canonical maxTreeDepth labelled .start
  obtain ⟨place, parts, edits, statement, -, -, replaced, form, kept⟩ := canonical 0 c found
  exact ⟨c, found, quiet, walked, q, ran, listed, place, parts, edits, statement, replaced, form,
    kept quiet⟩

end Gather
end PureEnum
