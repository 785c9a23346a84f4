import PureEnum.Proofs.Settled

/-! Success: the builder takes a call apart exactly when it is a call of a parenthesised function
with a parameter and a scope for its body. Recognition gives only such calls, and a visit makes no
other of them, whatever it rewrites inside and wherever it runs out of room. So gathering has no
way to fail. -/
namespace PureEnum

namespace Enum

/-- A call that the builder takes apart. Nothing is asked of the statements, the arguments or the
kind of the scope. -/
def TakesApart (call : Node) : Prop :=
  ∃ modifiers label parameter others head statements arguments,
    call = .callExpression (.parenthesizedExpression
      (.functionExpression modifiers label (parameter :: others) (.scope head statements)))
      arguments

/-- On any other call the builder fails, with the one error there is. -/
theorem wrapperCall_cases (name : String) (call : Node) :
    (TakesApart call ∧ ∃ built, wrapperCall name call = .ok built) ∨
      (¬ TakesApart call ∧ wrapperCall name call = .error (.malformedCall name)) := by
  unfold wrapperCall
  split
  case h_1 modifiers label parameter others body arguments =>
    cases body with
    | scope head statements =>
      exact .inl ⟨⟨_, _, _, _, _, _, _, rfl⟩, _,
        wrapperCall_scope name modifiers label parameter others head statements arguments⟩
    | _ => exact .inr ⟨by simp [TakesApart], rfl⟩
  case h_2 other =>
    refine .inr ⟨?_, rfl⟩
    rintro ⟨modifiers, label, parameter, others, head, statements, arguments, rfl⟩
    exact other _ _ _ _ _ _ rfl

theorem wrapperCall_eq_ok_iff {name : String} {call : Node} :
    (∃ built, wrapperCall name call = .ok built) ↔ TakesApart call := by
  rcases wrapperCall_cases name call with ⟨apart, built⟩ | ⟨other, failed⟩
  · exact iff_of_true built apart
  · exact iff_of_false (by simp [failed]) other

theorem takesApart_of_wrapperCall? {name : String} {s call : Node}
    (found : wrapperCall? name s = some call) : TakesApart call := by
  obtain ⟨_, modifiers, label, initializer, head, statements, arguments, -, -, rfl, -⟩ :=
    wrapperCall?_eq_some.mp found
  exact ⟨_, _, _, _, _, _, _, rfl⟩

/-- A visited scope is a scope, whatever became of its statements. -/
theorem exists_result_scope (depth : Nat) (head : ScopeHead Node) (statements : List Node) :
    ∃ visited after, Gather.result depth (.scope head statements) = .scope visited after := by
  cases depth <;> exact ⟨_, _, rfl⟩

/-- A call is still taken apart after a visit. The room left matters only for how deep the visit
looks: with none, one, two or more levels the call, its callee and its function are rebuilt or
kept, and each time the form stays. -/
theorem TakesApart.result {call : Node} (apart : TakesApart call) (depth : Nat) :
    TakesApart (Gather.result depth call) := by
  obtain ⟨modifiers, label, parameter, others, head, statements, arguments, rfl⟩ := apart
  obtain _ | _ | _ | depth := depth
  · exact ⟨_, _, _, _, _, _, _, rfl⟩
  · exact ⟨_, _, _, _, _, _, _, rfl⟩
  · exact ⟨_, _, _, _, _, _, _, rfl⟩
  · obtain ⟨visited, after, body⟩ := exists_result_scope depth head statements
    refine ⟨modifiers, label, parameter.map (Gather.result depth),
      others.map (Parameter.map (Gather.result depth)), visited, after,
      arguments.map (Gather.result (depth + 2)), ?_⟩
    rw [← body]
    rfl

end Enum

namespace Gather

/-- Gathering never fails: for no tree, for no bare list, and for no node or list visited with any
room left, whatever was noted before. Every call that is recognised as a wrapper is taken apart
after its visit. -/
theorem never_fails :
    (∀ (t : Node) p, ∃ e q, t.gather.run p = .ok (e, q)) ∧
    (∀ statements p, ∃ revisions q, (gatherList statements).run p = .ok (revisions, q)) ∧
    (∀ depth n p, ∃ e q, (node depth n).run p = .ok (e, q)) ∧
    (∀ depth statements p, ∃ revisions q,
      (list (node depth) statements).run p = .ok (revisions, q)) ∧
    (∀ name s call, Enum.wrapperCall? name s = some call → ∀ depth p, ∃ e q built,
      (node depth call).run p = .ok (e, q) ∧
        Enum.wrapperCall name (e.applyTo call) = .ok built) := by
  have visits : ∀ depth n p, ∃ e q, (node depth n).run p = .ok (e, q) := fun depth n p =>
    ⟨_, _, settles_node depth n p⟩
  have lists : ∀ depth statements p, ∃ revisions q,
      (list (node depth) statements).run p = .ok (revisions, q) := fun depth statements p =>
    ⟨_, _, settles_list (settles_node depth) statements p⟩
  refine ⟨visits maxTreeDepth, lists maxTreeDepth, visits, lists, ?_⟩
  intro name s call found depth p
  have apart := (Enum.takesApart_of_wrapperCall? found).result depth
  obtain ⟨built, made⟩ : ∃ built, Enum.wrapperCall name (result depth call) = .ok built :=
    Enum.wrapperCall_eq_ok_iff.mpr apart
  refine ⟨_, _, built, settles_node depth call p, ?_⟩
  rwa [applyTo_edit]

def clauseBody : Node :=
  .expressionStatement (Enum.wrapperCallOf .empty none (.plain "E") (.scope (.caseOf .nullLiteral)
    [.expressionStatement (.assign (.elementAccessExpression (.identifier "E")
      (.assign (.elementAccessExpression (.identifier "E") (.stringLiteral "A"))
        (.numericLiteral "0"))) (.stringLiteral "A"))]) [.identifier "E"])

/-- Its call is recognised, and taken apart though the visit ends inside it. -/
theorem never_fails_clauseBody : ∃ call, Enum.wrapperCall? "E" clauseBody = some call ∧
    ∃ e q built, (node 3 call).run .start = .ok (e, q) ∧
      Enum.wrapperCall "E" (e.applyTo call) = .ok built :=
  ⟨_, rfl, never_fails.2.2.2.2 "E" clauseBody _ rfl 3 .start⟩

end Gather
end PureEnum
