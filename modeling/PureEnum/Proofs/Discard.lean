import PureEnum.Proofs.Subtrees
import PureEnum.Proofs.Synthesis

/-! What an enclosed wrapper leaves out. Everything under the function's parameter and members
moves into the statement; the arguments of the call do not, nor does the test of a case that stands
for the body. Recognition asks nothing of the arguments or of the function's modifiers, so it is
not only the emitted argument that is lost. -/
namespace PureEnum

namespace Enum

/-- What compilers pass to a wrapper: `X || (X = {})`. -/
def emittedArgument (name : String) : Node :=
  .either (.identifier name) (.parenthesizedExpression (.assign (.identifier name) .emptyObject))

/-- A call of a function without modifiers, with the emitted argument and no other. -/
def Emitted (name : String) (call : Node) : Prop := ∃ label parameter body,
  call = wrapperCallOf .empty label parameter body [emittedArgument name]

theorem emitted_iff {name : String} {modifiers : Modifiers} {label : Option String}
    {parameter : Parameter Node} {body : Node} {arguments : List Node} :
    Emitted name (wrapperCallOf modifiers label parameter body arguments) ↔
      modifiers = .empty ∧ arguments = [emittedArgument name] := by
  constructor
  · rintro ⟨label, parameter, body, same⟩
    simp only [wrapperCallOf, Node.callExpression.injEq, Node.parenthesizedExpression.injEq,
      Node.functionExpression.injEq] at same
    exact ⟨same.1.1, same.2⟩
  · rintro ⟨rfl, rfl⟩
    exact ⟨_, _, _, rfl⟩

/-- Everything in a wrapper call behind its three outer nodes: what is under the parameter, the
body with what is in front of its statements and with these, and the arguments. -/
theorem subtrees_wrapperCallOf (modifiers : Modifiers) (label : Option String)
    (parameter : Parameter Node) (head : ScopeHead Node) (statements arguments : List Node) :
    (wrapperCallOf modifiers label parameter (.scope head statements) arguments).subtrees.drop 3 =
      parameter.children.flatMap Node.subtrees ++ .scope head statements ::
        (head.children.flatMap Node.subtrees ++ statements.flatMap Node.subtrees ++
          arguments.flatMap Node.subtrees) := by
  have inParens : ∀ function, (Node.parenthesizedExpression function).children = [function] :=
    fun _ => rfl
  rw [wrapperCallOf, Node.subtrees_eq, Node.children_callExpression, List.flatMap_cons,
    Node.subtrees_eq (.parenthesizedExpression _), inParens, List.flatMap_singleton,
    Node.subtrees_eq (.functionExpression ..), Node.children_functionExpression,
    List.flatMap_singleton, List.flatMap_append, List.flatMap_singleton,
    Node.subtrees_eq (.scope ..), Node.children_scope, List.flatMap_append]
  simp only [List.cons_append, List.append_assoc, List.drop_succ_cons, List.drop_zero]

end Enum

namespace Candidate

/-- A wrapper is recognised by its anchor, the parameter and the members, with anything behind it.
The arguments, the function's own name and modifiers, the parameter's default and the kind of the
body may be any. -/
theorem at?_wrapped_iff {statements : List Node} {index : Nat} {c : Candidate} :
    (at? statements index = some c ∧ c.shape = .wrapped) ↔
      ∃ e rest modifiers label initializer head members arguments,
        c = ofCall c.modifiers c.keyword c.name e.skipParens ∧
        statements.drop index = c.anchor :: .expressionStatement e :: rest ∧ rest ≠ [] ∧
        e.skipParens = Enum.wrapperCallOf modifiers label ⟨.identifier c.name, initializer, false⟩
          (.scope head members) arguments ∧
        ∀ s ∈ members, Enum.setsReverse c.name s := by
  constructor
  · rintro ⟨found, wrapped⟩
    obtain ⟨run, rest, split, fits⟩ := find?_eq_some.mp found
    rcases fits.call_or_run with ⟨modifiers, keyword, name, s, call, rfl, rfl, found⟩ |
      ⟨modifiers, keyword, name, properties, rfl, -⟩
    · obtain ⟨e, functionModifiers, label, initializer, head, members, arguments, rfl, rfl, form,
        reverse⟩ := Enum.wrapperCall?_eq_some.mp found
      exact ⟨e, rest, functionModifiers, label, initializer, head, members, arguments, rfl, split,
        fits.rest_ne_nil, form, reverse⟩
    · exact (shape_ofRun _ _ _ _ _ wrapped).elim
  · rintro ⟨e, rest, modifiers, label, initializer, head, members, arguments, same, split, behind,
      form, reverse⟩
    rw [same] at split ⊢
    have found : Enum.wrapperCall? c.name (.expressionStatement e) = some e.skipParens :=
      Enum.wrapperCall?_eq_some.mpr ⟨e, modifiers, label, initializer, head, members, arguments,
        rfl, rfl, form, reverse⟩
    exact ⟨find?_eq_some.mpr ⟨[.expressionStatement e], rest, split, .wrapper found behind⟩, rfl⟩

/-- A wrapper is enclosed with its parameter and its members as they are; the arguments are left
out with everything in them, and so is the test of a case that stands for the body. The call was
the emitted one exactly when its function has no modifiers and the emitted argument is its only
one, but any other modifiers and arguments are recognised as well. -/
theorem wrapped_discards {statements : List Node} {index : Nat} {c : Candidate}
    (found : at? statements index = some c) (wrapped : c.shape = .wrapped) :
    ∃ modifiers label initializer head members arguments,
      let parameter : Parameter Node := ⟨.identifier c.name, initializer, false⟩
      let body := Node.scope head members
      let returning := Node.block (members ++ [.returnStatement (some (.identifier c.name))])
      let call := Enum.wrapperCallOf modifiers label parameter body arguments
      let built := Enum.wrapperCallOf modifiers label parameter returning [.emptyObject]
      c.run = .wrapper call ∧ c.enclosed = .ok (c.host built) ∧
      call.subtrees.drop 3 = parameter.children.flatMap Node.subtrees ++ body ::
        (head.children.flatMap Node.subtrees ++ members.flatMap Node.subtrees ++
          arguments.flatMap Node.subtrees) ∧
      built.subtrees.drop 3 = parameter.children.flatMap Node.subtrees ++ returning ::
        (members.flatMap Node.subtrees ++
          [.returnStatement (some (.identifier c.name)), .identifier c.name, .emptyObject]) ∧
      (Enum.Emitted c.name call ↔
        modifiers = .empty ∧ arguments = [Enum.emittedArgument c.name]) ∧
      ∀ modifiers arguments, ∃ d, at? (c.anchor :: .expressionStatement
        (Enum.wrapperCallOf modifiers label parameter body arguments) ::
          statements.drop (index + 2)) 0 = some d ∧ d.shape = .wrapped := by
  obtain ⟨e, rest, modifiers, label, initializer, head, members, arguments, same, split, behind,
    form, reverse⟩ := at?_wrapped_iff.mp ⟨found, wrapped⟩
  refine ⟨modifiers, label, initializer, head, members, arguments, ?_, ?_,
    Enum.subtrees_wrapperCallOf .., ?_, Enum.emitted_iff, ?_⟩
  · rw [same, form]
    rfl
  · rw [same, form]
    exact congrArg (Except.map _) (Enum.wrapperCall_scope ..)
  · have returned : (Node.returnStatement (some (.identifier c.name))).children =
        [.identifier c.name] := rfl
    have name := Node.subtrees_of_leaf (n := .identifier c.name) rfl
    have object := Node.subtrees_of_leaf (n := .emptyObject) rfl
    rw [Node.block, Enum.subtrees_wrapperCallOf, List.flatMap_append, List.flatMap_singleton,
      List.flatMap_singleton, Node.subtrees_eq (.returnStatement _), returned,
      List.flatMap_singleton, name, object]
    simp [ScopeHead.children]
  · intro others passed
    have dropped : statements.drop (index + 2) = rest := by
      rw [← List.drop_drop, split]
      rfl
    let call := Enum.wrapperCallOf others label ⟨.identifier c.name, initializer, false⟩
      (.scope head members) passed
    rw [dropped]
    refine ⟨ofCall c.modifiers c.keyword c.name call, at?_wrapped_iff.mpr
      ⟨call, rest, others, label, initializer, head, members, passed, rfl, ?_, behind, rfl,
        reverse⟩⟩
    rw [same]
    rfl

/-- A wrapper call of an enum that its module exports: `E || (exports.E = E = {})` is its argument,
which sets the export. -/
def exportingCall : Node :=
  let exporting := Node.assign (.propertyAccessExpression (.identifier "exports") "E")
    (.assign (.identifier "E") .emptyObject)
  let setsReverse := .expressionStatement (.assign (.elementAccessExpression (.identifier "E")
    (.assign (.elementAccessExpression (.identifier "E") (.stringLiteral "A"))
      (.numericLiteral "0"))) (.stringLiteral "A"))
  Enum.wrapperCallOf .empty none (.plain "E") (.block [setsReverse])
    [.either (.identifier "E") (.parenthesizedExpression exporting)]

def exported : List Node := [.declare "E" none, .expressionStatement exportingCall,
  .expressionStatement (.callExpression (.identifier "use") [.identifier "E"])]

theorem not_emitted_exportingCall : ¬ Enum.Emitted "E" exportingCall := by
  intro emitted
  have same := (Enum.emitted_iff.mp emitted).2
  simp [Enum.emittedArgument, Node.either, Node.assign] at same

/-- The exporting call is enclosed like an emitted one, which it is not. -/
theorem wrapped_discards_exported : ∃ c call built, at? exported 0 = some c ∧
    c.shape = .wrapped ∧ c.run = .wrapper call ∧ c.enclosed = .ok (c.host built) ∧
    ¬ Enum.Emitted c.name call := by
  obtain ⟨_, _, _, _, _, _, run, built, -, -, -, -⟩ :=
    wrapped_discards (rfl : at? exported 0 = some _) rfl
  have same := Run.wrapper.inj run
  exact ⟨_, _, _, rfl, rfl, run, built, same ▸ not_emitted_exportingCall⟩

/-- Not every wrapper that is recognised has the emitted argument. -/
theorem discards_export : ¬ ∀ statements index c call, at? statements index = some c →
    c.run = .wrapper call → Enum.Emitted c.name call := by
  intro every
  exact not_emitted_exportingCall (every exported 0 _ _ rfl rfl)

end Candidate
end PureEnum
