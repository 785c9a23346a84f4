import PureEnum.Tree.Kind
import PureEnum.Tree.Modifiers
import PureEnum.Tree.Comment

/-! Syntax trees of JavaScript, as far as enums are gathered in them. A tree is a closed set of
shapes; texts that are not nodes (names of functions, labels, operators) stand in the node. The
five kinds that own a statement list are one constructor, so that a scope is a scope by its form. -/
namespace PureEnum

inductive Keyword where
  | var | let | const
  deriving DecidableEq, Repr

namespace Keyword

def all : List Keyword := [var, «let», const]

def text : Keyword → String
  | var => "var"
  | «let» => "let"
  | const => "const"

/-- The written form, capitalised. -/
def name : Keyword → String
  | var => "Var"
  | «let» => "Let"
  | const => "Const"

def ofName? (name : String) : Option Keyword := all.find? fun keyword => keyword.name == name

@[simp] theorem ofName?_name (keyword : Keyword) : ofName? keyword.name = some keyword := by
  cases keyword <;> decide

end Keyword

structure Declaration (ν : Type) where
  name : ν
  initializer : Option ν

/-- One parameter of a function. A rest parameter takes all remaining arguments. -/
structure Parameter (ν : Type) where
  name : ν
  initializer : Option ν
  rest : Bool

/-- What a scope has besides its statements. -/
inductive ScopeHead (ν : Type) where
  | file (name : String)
  | block
  | moduleBlock
  | caseOf (test : ν)
  | defaultCase

inductive Node where
  /-- An ordered list of statements. -/
  | scope (head : ScopeHead Node) (statements : List Node)
  /-- Declares names: `var a = 1, b;`. -/
  | variableStatement (modifiers : Modifiers) (keyword : Keyword) (declarations : List
      (Declaration Node))
  /-- Evaluates: `e;`. -/
  | expressionStatement (expression : Node)
  /-- Leaves a function: `return e;`. -/
  | returnStatement (expression : Option Node)
  /-- Chooses: `if (c) s else t`. -/
  | ifStatement (condition yes : Node) (no : Option Node)
  /-- Loops with a head of three parts: `for (i; c; s) b`. -/
  | forStatement (initializer condition step : Option Node) (body : Node)
  /-- Loops over keys: `for (i in e) b`. -/
  | forInStatement (initializer expression body : Node)
  /-- Loops over items: `for (i of e) b`. -/
  | forOfStatement (initializer expression body : Node)
  /-- Loops while: `while (c) b`. -/
  | whileStatement (condition body : Node)
  /-- Loops at least once: `do b while (c);`. -/
  | doStatement (body condition : Node)
  /-- Branches over clauses: `switch (e)`. -/
  | switchStatement (expression : Node) (clauses : List Node)
  /-- Guards a block: `try b catch (v) h finally f`. -/
  | tryStatement (block : Node) (handler finish : Option Node)
  /-- Handles what was thrown: `catch (v) b`. -/
  | catchClause (binding : Option Node) (block : Node)
  /-- Throws: `throw e;`. -/
  | throwStatement (expression : Node)
  /-- Names a statement: `l: s`. -/
  | labeledStatement (label : String) (statement : Node)
  /-- Leaves a loop: `break l;`. -/
  | breakStatement (label : Option String)
  /-- Starts the next round: `continue l;`. -/
  | continueStatement (label : Option String)
  /-- Does nothing: `;`. -/
  | emptyStatement
  /-- Declares a function: `function f(p) b`. -/
  | functionDeclaration (modifiers : Modifiers) (name : Option String) (parameters : List
      (Parameter Node)) (body : Node)
  /-- Declares a class: `class C extends B`. -/
  | classDeclaration (modifiers : Modifiers) (name : Option String) (heritage : Option Node)
      (members : List Node)
  /-- Declares a namespace: `namespace N b`. -/
  | moduleDeclaration (modifiers : Modifiers) (name : String) (body : Node)
  /-- Imports a default binding and named ones: `import d from "m";`. -/
  | importDeclaration (primary : Option String) (named : List String) (specifier : String)
  /-- Member of a class: `m(p) b`. -/
  | methodDeclaration (modifiers : Modifiers) (name : Node) (parameters : List (Parameter Node))
      (body : Node)
  /-- Field of a class: `p = e;`. -/
  | propertyDeclaration (modifiers : Modifiers) (name : Node) (initializer : Option Node)
  /-- Name in an expression: `x`. -/
  | identifier (text : String)
  /-- Number, kept as it was spelled. -/
  | numericLiteral (text : String)
  /-- Text, holding its value and not its spelling. -/
  | stringLiteral (text : String)
  /-- Truth value: `true` or `false`. -/
  | booleanLiteral (value : Bool)
  /-- The literal `null`. -/
  | nullLiteral
  /-- The word `this`. -/
  | thisKeyword
  /-- Object literal. -/
  | objectLiteralExpression (properties : List Node)
  /-- Member of an object literal: `p: e`. -/
  | propertyAssignment (name initializer : Node)
  /-- Member named by its variable: `p`. -/
  | shorthandPropertyAssignment (name : String)
  /-- Spread in an object literal: `...e`. -/
  | spreadAssignment (expression : Node)
  /-- Array literal: `[a, b]`. -/
  | arrayLiteralExpression (elements : List Node)
  /-- Member by name: `e.p`. -/
  | propertyAccessExpression (expression : Node) (name : String)
  /-- Member by key: `e[a]`. -/
  | elementAccessExpression (expression argument : Node)
  /-- Call: `f(a, b)`. -/
  | callExpression (callee : Node) (arguments : List Node)
  /-- Construction: `new f(a, b)`, or `new f` with no argument list. -/
  | newExpression (callee : Node) (arguments : Option (List Node))
  /-- Operator between two operands, assignment and comma included: `a + b`. -/
  | binaryExpression (left : Node) (operator : String) (right : Node)
  /-- Operator in front: `-x`. -/
  | prefixUnaryExpression (operator : String) (operand : Node)
  /-- Operator behind: `x++`. -/
  | postfixUnaryExpression (operand : Node) (operator : String)
  /-- Choice of values: `c ? a : b`. -/
  | conditionalExpression (condition yes no : Node)
  /-- Parentheses: `(e)`. -/
  | parenthesizedExpression (expression : Node)
  /-- Function as a value: `function f(p) b`. -/
  | functionExpression (modifiers : Modifiers) (name : Option String) (parameters : List
      (Parameter Node)) (body : Node)
  /-- Arrow function over a block or an expression: `(p) => b`. -/
  | arrowFunction (modifiers : Modifiers) (parameters : List (Parameter Node)) (body : Node)
  /-- Class as a value: `class C extends B`. -/
  | classExpression (name : Option String) (heritage : Option Node) (members : List Node)
  /-- Spread in a call or an array: `...e`. -/
  | spreadElement (expression : Node)
  /-- Expression with a comment in front. -/
  | annotatedExpression (comment : Comment) (expression : Node)
  /-- Text that no rule looks inside. -/
  | raw (text : String)

def ScopeHead.kind : ScopeHead ν → Kind
  | file _ => .sourceFile
  | block => .block
  | moduleBlock => .moduleBlock
  | caseOf _ => .caseClause
  | defaultCase => .defaultClause

namespace Node

def kind : Node → Kind
  | scope head _ => head.kind
  | variableStatement .. => .variableStatement
  | expressionStatement .. => .expressionStatement
  | returnStatement .. => .returnStatement
  | ifStatement .. => .ifStatement
  | forStatement .. => .forStatement
  | forInStatement .. => .forInStatement
  | forOfStatement .. => .forOfStatement
  | whileStatement .. => .whileStatement
  | doStatement .. => .doStatement
  | switchStatement .. => .switchStatement
  | tryStatement .. => .tryStatement
  | catchClause .. => .catchClause
  | throwStatement .. => .throwStatement
  | labeledStatement .. => .labeledStatement
  | breakStatement .. => .breakStatement
  | continueStatement .. => .continueStatement
  | emptyStatement .. => .emptyStatement
  | functionDeclaration .. => .functionDeclaration
  | classDeclaration .. => .classDeclaration
  | moduleDeclaration .. => .moduleDeclaration
  | importDeclaration .. => .importDeclaration
  | methodDeclaration .. => .methodDeclaration
  | propertyDeclaration .. => .propertyDeclaration
  | identifier .. => .identifier
  | numericLiteral .. => .numericLiteral
  | stringLiteral .. => .stringLiteral
  | booleanLiteral .. => .booleanLiteral
  | nullLiteral .. => .nullLiteral
  | thisKeyword .. => .thisKeyword
  | objectLiteralExpression .. => .objectLiteralExpression
  | propertyAssignment .. => .propertyAssignment
  | shorthandPropertyAssignment .. => .shorthandPropertyAssignment
  | spreadAssignment .. => .spreadAssignment
  | arrayLiteralExpression .. => .arrayLiteralExpression
  | propertyAccessExpression .. => .propertyAccessExpression
  | elementAccessExpression .. => .elementAccessExpression
  | callExpression .. => .callExpression
  | newExpression .. => .newExpression
  | binaryExpression .. => .binaryExpression
  | prefixUnaryExpression .. => .prefixUnaryExpression
  | postfixUnaryExpression .. => .postfixUnaryExpression
  | conditionalExpression .. => .conditionalExpression
  | parenthesizedExpression .. => .parenthesizedExpression
  | functionExpression .. => .functionExpression
  | arrowFunction .. => .arrowFunction
  | classExpression .. => .classExpression
  | spreadElement .. => .spreadElement
  | annotatedExpression .. => .annotatedExpression
  | raw .. => .raw

/-- A node of a scope kind is a scope, and no other node is. -/
theorem isScope_kind {n : Node} :
    n.kind.isScope ↔ ∃ head statements, n = scope head statements := by
  cases n with
  | scope head statements => cases head <;> simp [kind, ScopeHead.kind, Kind.isScope]
  | _ => simp [kind, Kind.isScope]

end Node
end PureEnum
