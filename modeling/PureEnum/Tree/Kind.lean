/-! The kinds of syntax node. A kind is written by its name, which no other kind has. -/
namespace PureEnum

inductive Kind where
  | sourceFile | block | moduleBlock | caseClause | defaultClause
  | variableStatement | expressionStatement | returnStatement | ifStatement | forStatement
  | forInStatement | forOfStatement | whileStatement | doStatement | switchStatement | tryStatement
  | catchClause | throwStatement | labeledStatement | breakStatement | continueStatement
  | emptyStatement | functionDeclaration | classDeclaration | moduleDeclaration | importDeclaration
  | methodDeclaration | propertyDeclaration
  | identifier | numericLiteral | stringLiteral | booleanLiteral | nullLiteral | thisKeyword
  | objectLiteralExpression | propertyAssignment | shorthandPropertyAssignment | spreadAssignment
  | arrayLiteralExpression | propertyAccessExpression | elementAccessExpression | callExpression
  | newExpression | binaryExpression | prefixUnaryExpression | postfixUnaryExpression
  | conditionalExpression | parenthesizedExpression | functionExpression | arrowFunction
  | classExpression | spreadElement | annotatedExpression | raw
  deriving DecidableEq, Repr

namespace Kind

def all : List Kind := [
  .sourceFile, .block, .moduleBlock, .caseClause, .defaultClause, .variableStatement,
  .expressionStatement, .returnStatement, .ifStatement, .forStatement, .forInStatement,
  .forOfStatement, .whileStatement, .doStatement, .switchStatement, .tryStatement, .catchClause,
  .throwStatement, .labeledStatement, .breakStatement, .continueStatement, .emptyStatement,
  .functionDeclaration, .classDeclaration, .moduleDeclaration, .importDeclaration,
  .methodDeclaration, .propertyDeclaration, .identifier, .numericLiteral, .stringLiteral,
  .booleanLiteral, .nullLiteral, .thisKeyword, .objectLiteralExpression, .propertyAssignment,
  .shorthandPropertyAssignment, .spreadAssignment, .arrayLiteralExpression,
  .propertyAccessExpression, .elementAccessExpression, .callExpression, .newExpression,
  .binaryExpression, .prefixUnaryExpression, .postfixUnaryExpression, .conditionalExpression,
  .parenthesizedExpression, .functionExpression, .arrowFunction, .classExpression, .spreadElement,
  .annotatedExpression, .raw]

def name : Kind → String
  | .sourceFile => "SourceFile"
  | .block => "Block"
  | .moduleBlock => "ModuleBlock"
  | .caseClause => "CaseClause"
  | .defaultClause => "DefaultClause"
  | .variableStatement => "VariableStatement"
  | .expressionStatement => "ExpressionStatement"
  | .returnStatement => "ReturnStatement"
  | .ifStatement => "IfStatement"
  | .forStatement => "ForStatement"
  | .forInStatement => "ForInStatement"
  | .forOfStatement => "ForOfStatement"
  | .whileStatement => "WhileStatement"
  | .doStatement => "DoStatement"
  | .switchStatement => "SwitchStatement"
  | .tryStatement => "TryStatement"
  | .catchClause => "CatchClause"
  | .throwStatement => "ThrowStatement"
  | .labeledStatement => "LabeledStatement"
  | .breakStatement => "BreakStatement"
  | .continueStatement => "ContinueStatement"
  | .emptyStatement => "EmptyStatement"
  | .functionDeclaration => "FunctionDeclaration"
  | .classDeclaration => "ClassDeclaration"
  | .moduleDeclaration => "ModuleDeclaration"
  | .importDeclaration => "ImportDeclaration"
  | .methodDeclaration => "MethodDeclaration"
  | .propertyDeclaration => "PropertyDeclaration"
  | .identifier => "Identifier"
  | .numericLiteral => "NumericLiteral"
  | .stringLiteral => "StringLiteral"
  | .booleanLiteral => "BooleanLiteral"
  | .nullLiteral => "NullLiteral"
  | .thisKeyword => "ThisKeyword"
  | .objectLiteralExpression => "ObjectLiteralExpression"
  | .propertyAssignment => "PropertyAssignment"
  | .shorthandPropertyAssignment => "ShorthandPropertyAssignment"
  | .spreadAssignment => "SpreadAssignment"
  | .arrayLiteralExpression => "ArrayLiteralExpression"
  | .propertyAccessExpression => "PropertyAccessExpression"
  | .elementAccessExpression => "ElementAccessExpression"
  | .callExpression => "CallExpression"
  | .newExpression => "NewExpression"
  | .binaryExpression => "BinaryExpression"
  | .prefixUnaryExpression => "PrefixUnaryExpression"
  | .postfixUnaryExpression => "PostfixUnaryExpression"
  | .conditionalExpression => "ConditionalExpression"
  | .parenthesizedExpression => "ParenthesizedExpression"
  | .functionExpression => "FunctionExpression"
  | .arrowFunction => "ArrowFunction"
  | .classExpression => "ClassExpression"
  | .spreadElement => "SpreadElement"
  | .annotatedExpression => "AnnotatedExpression"
  | .raw => "Raw"

/-- The kind of a name. Names are matched exactly, case included. -/
def ofName? (name : String) : Option Kind := all.find? fun kind => kind.name == name

/-- Whether nodes of this kind own an ordered statement list. Function bodies are blocks. -/
def isScope : Kind → Bool
  | sourceFile | block | moduleBlock | caseClause | defaultClause => true
  | _ => false

theorem mem_all (kind : Kind) : kind ∈ all := by cases kind <;> decide

@[simp] theorem ofName?_name (kind : Kind) : ofName? kind.name = some kind := by
  cases kind <;> decide

theorem name_of_ofName? {name : String} {kind : Kind} (h : ofName? name = some kind) :
    kind.name = name := by simpa using List.find?_some h

end Kind
end PureEnum
