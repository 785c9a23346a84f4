import PureEnum.Enum.Candidate
import PureEnum.Tree.Make

/-! The statement that replaces an enum: the anchor with one initializer, a call marked pure of a
function that builds the object and returns it. Members move into a new function; a wrapper keeps
its function, which gets a fresh object as its only argument. -/
namespace PureEnum

/-- A wrapper call that is no call of a parenthesised function with a parameter and statements. -/
inductive WrapError where
  | malformedCall (name : String)
  deriving DecidableEq, Repr

def WrapError.message : WrapError → String
  | malformedCall name => "invalid IIFE structure for enum `" ++ name ++
      "`: expected `(function (" ++ name ++ ") \x7b ... \x7d)(...)`"

namespace Enum

/-- The call `(function () { var X = …; members; return X; })()`. -/
def membersCall (name : String) (initializer : Option Node) (members : List Node) : Node :=
  let object := Node.declare name (some (initializer.getD .emptyObject))
  let result := Node.returnStatement (some (.identifier name))
  .callExpression (.parenthesizedExpression (.function none [] (object :: members ++ [result]))) []

/-- The call `(function (X) { members; return X; })({})`. What is returned is the function's own
first parameter; nothing else of the function changes. -/
def wrapperCall (name : String) : Node → Except WrapError Node
  | .callExpression (.parenthesizedExpression
      (.functionExpression modifiers label (parameter :: others) body)) _ =>
    match body.statements? with
    | some statements =>
      let result := Node.returnStatement (some parameter.name)
      let function := Node.functionExpression modifiers label (parameter :: others)
        (.block (statements ++ [result]))
      .ok (.callExpression (.parenthesizedExpression function) [.emptyObject])
    | none => .error (.malformedCall name)
  | _ => .error (.malformedCall name)

theorem wrapperCall_scope (name : String) (modifiers : Modifiers) (label : Option String)
    (parameter : Parameter Node) (others : List (Parameter Node)) (head : ScopeHead Node)
    (statements arguments : List Node) :
    wrapperCall name (.callExpression (.parenthesizedExpression
        (.functionExpression modifiers label (parameter :: others) (.scope head statements)))
        arguments) =
      .ok (.callExpression (.parenthesizedExpression
        (.functionExpression modifiers label (parameter :: others)
          (.block (statements ++ [.returnStatement (some parameter.name)])))) [.emptyObject]) := by
  simp only [wrapperCall, Node.statements?_scope]

end Enum

namespace Candidate

def host (c : Candidate) (call : Node) : Node :=
  .variableStatement c.modifiers c.keyword
    [⟨c.declaration.name, some (.markPure (.parenthesizedExpression call))⟩]

def enclosed (c : Candidate) : Except WrapError Node :=
  match c.run with
  | .wrapper call => c.host <$> Enum.wrapperCall c.name call
  | .flat members | .fixed members =>
    .ok (c.host (Enum.membersCall c.name c.declaration.initializer members))

end Candidate
end PureEnum
