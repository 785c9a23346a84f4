import PureEnum.Tree.Node

/-! Shorthand for nodes that fix some of their parts. -/
namespace PureEnum

def Parameter.plain (name : String) : Parameter Node := ⟨.identifier name, none, false⟩

def Parameter.remaining (name : String) : Parameter Node := ⟨.identifier name, none, true⟩

namespace Node

def file (name : String) (statements : List Node) : Node := .scope (.file name) statements

def block (statements : List Node) : Node := .scope .block statements

def assign (target value : Node) : Node := .binaryExpression target "=" value

def either (left right : Node) : Node := .binaryExpression left "||" right

def declareWith (modifiers : Modifiers) (keyword : Keyword) (name : String)
    (initializer : Option Node) : Node :=
  .variableStatement modifiers keyword [⟨.identifier name, initializer⟩]

def declare (name : String) (initializer : Option Node) : Node :=
  declareWith .empty .var name initializer

def function (name : Option String) (parameters : List (Parameter Node)) (body : List Node) :
    Node :=
  .functionExpression .empty name parameters (block body)

def declareFunction (name : String) (parameters : List (Parameter Node)) (body : List Node) :
    Node :=
  .functionDeclaration .empty (some name) parameters (block body)

/-- An object literal with plain names. -/
def object (members : List (String × Node)) : Node :=
  .objectLiteralExpression (members.map fun (name, value) =>
    .propertyAssignment (.identifier name) value)

def emptyObject : Node := .objectLiteralExpression []

/-- A call that a minifier may drop when its result is unused. -/
def markPure (expression : Node) : Node := .annotatedExpression .pureMark expression

def moduleOf (name : String) (body : List Node) : Node :=
  .moduleDeclaration .empty name (.scope .moduleBlock body)

def importNamed (names : List String) (specifier : String) : Node :=
  .importDeclaration none names specifier

end Node
end PureEnum
