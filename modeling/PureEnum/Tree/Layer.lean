import PureEnum.Tree.Fields

/-! Layers: a node seen as its kind and the contents of that kind's fields. Nodes and layers over
nodes are the same thing, so a rule given once per slot is a rule for every kind. The subtrees of
a node are those of its layer, in the order of its fields. -/
namespace PureEnum

structure Layer (ν : Type) where
  kind : Kind
  row : Row (Slot.Content ν) kind.fields

def Node.layer : Node → Layer Node
  | .scope (.file name) statements => ⟨.sourceFile, name, statements, ()⟩
  | .scope .block statements => ⟨.block, statements, ()⟩
  | .scope .moduleBlock statements => ⟨.moduleBlock, statements, ()⟩
  | .scope (.caseOf test) statements => ⟨.caseClause, test, statements, ()⟩
  | .scope .defaultCase statements => ⟨.defaultClause, statements, ()⟩
  | .variableStatement modifiers keyword declarations => ⟨.variableStatement, modifiers, keyword,
      declarations, ()⟩
  | .expressionStatement expression => ⟨.expressionStatement, expression, ()⟩
  | .returnStatement expression => ⟨.returnStatement, expression, ()⟩
  | .ifStatement condition yes no => ⟨.ifStatement, condition, yes, no, ()⟩
  | .forStatement initializer condition step body => ⟨.forStatement, initializer, condition, step,
      body, ()⟩
  | .forInStatement initializer expression body => ⟨.forInStatement, initializer, expression,
      body, ()⟩
  | .forOfStatement initializer expression body => ⟨.forOfStatement, initializer, expression,
      body, ()⟩
  | .whileStatement condition body => ⟨.whileStatement, condition, body, ()⟩
  | .doStatement body condition => ⟨.doStatement, body, condition, ()⟩
  | .switchStatement expression clauses => ⟨.switchStatement, expression, clauses, ()⟩
  | .tryStatement block handler finish => ⟨.tryStatement, block, handler, finish, ()⟩
  | .catchClause binding block => ⟨.catchClause, binding, block, ()⟩
  | .throwStatement expression => ⟨.throwStatement, expression, ()⟩
  | .labeledStatement label statement => ⟨.labeledStatement, label, statement, ()⟩
  | .breakStatement label => ⟨.breakStatement, label, ()⟩
  | .continueStatement label => ⟨.continueStatement, label, ()⟩
  | .emptyStatement => ⟨.emptyStatement, ()⟩
  | .functionDeclaration modifiers name parameters body => ⟨.functionDeclaration, modifiers, name,
      parameters, body, ()⟩
  | .classDeclaration modifiers name heritage members => ⟨.classDeclaration, modifiers, name,
      heritage, members, ()⟩
  | .moduleDeclaration modifiers name body => ⟨.moduleDeclaration, modifiers, name, body, ()⟩
  | .importDeclaration primary named specifier => ⟨.importDeclaration, primary, named, specifier,
      ()⟩
  | .methodDeclaration modifiers name parameters body => ⟨.methodDeclaration, modifiers, name,
      parameters, body, ()⟩
  | .propertyDeclaration modifiers name initializer => ⟨.propertyDeclaration, modifiers, name,
      initializer, ()⟩
  | .identifier text => ⟨.identifier, text, ()⟩
  | .numericLiteral text => ⟨.numericLiteral, text, ()⟩
  | .stringLiteral text => ⟨.stringLiteral, text, ()⟩
  | .booleanLiteral value => ⟨.booleanLiteral, value, ()⟩
  | .nullLiteral => ⟨.nullLiteral, ()⟩
  | .thisKeyword => ⟨.thisKeyword, ()⟩
  | .objectLiteralExpression properties => ⟨.objectLiteralExpression, properties, ()⟩
  | .propertyAssignment name initializer => ⟨.propertyAssignment, name, initializer, ()⟩
  | .shorthandPropertyAssignment name => ⟨.shorthandPropertyAssignment, name, ()⟩
  | .spreadAssignment expression => ⟨.spreadAssignment, expression, ()⟩
  | .arrayLiteralExpression elements => ⟨.arrayLiteralExpression, elements, ()⟩
  | .propertyAccessExpression expression name => ⟨.propertyAccessExpression, expression, name, ()⟩
  | .elementAccessExpression expression argument => ⟨.elementAccessExpression, expression,
      argument, ()⟩
  | .callExpression callee arguments => ⟨.callExpression, callee, arguments, ()⟩
  | .newExpression callee arguments => ⟨.newExpression, callee, arguments, ()⟩
  | .binaryExpression left operator right => ⟨.binaryExpression, left, operator, right, ()⟩
  | .prefixUnaryExpression operator operand => ⟨.prefixUnaryExpression, operator, operand, ()⟩
  | .postfixUnaryExpression operand operator => ⟨.postfixUnaryExpression, operand, operator, ()⟩
  | .conditionalExpression condition yes no => ⟨.conditionalExpression, condition, yes, no, ()⟩
  | .parenthesizedExpression expression => ⟨.parenthesizedExpression, expression, ()⟩
  | .functionExpression modifiers name parameters body => ⟨.functionExpression, modifiers, name,
      parameters, body, ()⟩
  | .arrowFunction modifiers parameters body => ⟨.arrowFunction, modifiers, parameters, body, ()⟩
  | .classExpression name heritage members => ⟨.classExpression, name, heritage, members, ()⟩
  | .spreadElement expression => ⟨.spreadElement, expression, ()⟩
  | .annotatedExpression comment expression => ⟨.annotatedExpression, comment, expression, ()⟩
  | .raw text => ⟨.raw, text, ()⟩

def Layer.node : Layer Node → Node
  | ⟨.sourceFile, name, statements, ()⟩ => .scope (.file name) statements
  | ⟨.block, statements, ()⟩ => .scope .block statements
  | ⟨.moduleBlock, statements, ()⟩ => .scope .moduleBlock statements
  | ⟨.caseClause, test, statements, ()⟩ => .scope (.caseOf test) statements
  | ⟨.defaultClause, statements, ()⟩ => .scope .defaultCase statements
  | ⟨.variableStatement, modifiers, keyword, declarations, ()⟩ => .variableStatement modifiers
      keyword declarations
  | ⟨.expressionStatement, expression, ()⟩ => .expressionStatement expression
  | ⟨.returnStatement, expression, ()⟩ => .returnStatement expression
  | ⟨.ifStatement, condition, yes, no, ()⟩ => .ifStatement condition yes no
  | ⟨.forStatement, initializer, condition, step, body, ()⟩ => .forStatement initializer condition
      step body
  | ⟨.forInStatement, initializer, expression, body, ()⟩ => .forInStatement initializer expression
      body
  | ⟨.forOfStatement, initializer, expression, body, ()⟩ => .forOfStatement initializer expression
      body
  | ⟨.whileStatement, condition, body, ()⟩ => .whileStatement condition body
  | ⟨.doStatement, body, condition, ()⟩ => .doStatement body condition
  | ⟨.switchStatement, expression, clauses, ()⟩ => .switchStatement expression clauses
  | ⟨.tryStatement, block, handler, finish, ()⟩ => .tryStatement block handler finish
  | ⟨.catchClause, binding, block, ()⟩ => .catchClause binding block
  | ⟨.throwStatement, expression, ()⟩ => .throwStatement expression
  | ⟨.labeledStatement, label, statement, ()⟩ => .labeledStatement label statement
  | ⟨.breakStatement, label, ()⟩ => .breakStatement label
  | ⟨.continueStatement, label, ()⟩ => .continueStatement label
  | ⟨.emptyStatement, ()⟩ => .emptyStatement
  | ⟨.functionDeclaration, modifiers, name, parameters, body, ()⟩ => .functionDeclaration
      modifiers name parameters body
  | ⟨.classDeclaration, modifiers, name, heritage, members, ()⟩ => .classDeclaration modifiers
      name heritage members
  | ⟨.moduleDeclaration, modifiers, name, body, ()⟩ => .moduleDeclaration modifiers name body
  | ⟨.importDeclaration, primary, named, specifier, ()⟩ => .importDeclaration primary named
      specifier
  | ⟨.methodDeclaration, modifiers, name, parameters, body, ()⟩ => .methodDeclaration modifiers
      name parameters body
  | ⟨.propertyDeclaration, modifiers, name, initializer, ()⟩ => .propertyDeclaration modifiers
      name initializer
  | ⟨.identifier, text, ()⟩ => .identifier text
  | ⟨.numericLiteral, text, ()⟩ => .numericLiteral text
  | ⟨.stringLiteral, text, ()⟩ => .stringLiteral text
  | ⟨.booleanLiteral, value, ()⟩ => .booleanLiteral value
  | ⟨.nullLiteral, ()⟩ => .nullLiteral
  | ⟨.thisKeyword, ()⟩ => .thisKeyword
  | ⟨.objectLiteralExpression, properties, ()⟩ => .objectLiteralExpression properties
  | ⟨.propertyAssignment, name, initializer, ()⟩ => .propertyAssignment name initializer
  | ⟨.shorthandPropertyAssignment, name, ()⟩ => .shorthandPropertyAssignment name
  | ⟨.spreadAssignment, expression, ()⟩ => .spreadAssignment expression
  | ⟨.arrayLiteralExpression, elements, ()⟩ => .arrayLiteralExpression elements
  | ⟨.propertyAccessExpression, expression, name, ()⟩ => .propertyAccessExpression expression name
  | ⟨.elementAccessExpression, expression, argument, ()⟩ => .elementAccessExpression expression
      argument
  | ⟨.callExpression, callee, arguments, ()⟩ => .callExpression callee arguments
  | ⟨.newExpression, callee, arguments, ()⟩ => .newExpression callee arguments
  | ⟨.binaryExpression, left, operator, right, ()⟩ => .binaryExpression left operator right
  | ⟨.prefixUnaryExpression, operator, operand, ()⟩ => .prefixUnaryExpression operator operand
  | ⟨.postfixUnaryExpression, operand, operator, ()⟩ => .postfixUnaryExpression operand operator
  | ⟨.conditionalExpression, condition, yes, no, ()⟩ => .conditionalExpression condition yes no
  | ⟨.parenthesizedExpression, expression, ()⟩ => .parenthesizedExpression expression
  | ⟨.functionExpression, modifiers, name, parameters, body, ()⟩ => .functionExpression modifiers
      name parameters body
  | ⟨.arrowFunction, modifiers, parameters, body, ()⟩ => .arrowFunction modifiers parameters body
  | ⟨.classExpression, name, heritage, members, ()⟩ => .classExpression name heritage members
  | ⟨.spreadElement, expression, ()⟩ => .spreadElement expression
  | ⟨.annotatedExpression, comment, expression, ()⟩ => .annotatedExpression comment expression
  | ⟨.raw, text, ()⟩ => .raw text

@[simp] theorem Node.node_layer (n : Node) : n.layer.node = n := by
  cases n with
  | scope head _ => cases head <;> rfl
  | _ => rfl

@[simp] theorem Layer.layer_node (l : Layer Node) : l.node.layer = l := by
  obtain ⟨kind, row⟩ := l
  cases kind <;> rfl

@[simp] theorem Node.kind_layer (n : Node) : n.layer.kind = n.kind := by
  cases n with
  | scope head _ => cases head <;> rfl
  | _ => rfl

@[simp] theorem Layer.kind_node (l : Layer Node) : l.node.kind = l.kind := by
  rw [← Node.kind_layer, Layer.layer_node]

variable {ν μ : Type} {m : Type → Type} [Monad m]

namespace Row

def children : {fields : List (String × Slot)} → Row (Slot.Content ν) fields → List ν
  | [], () => []
  | field :: _, (x, rest) => field.2.children x ++ children rest

def map (f : ν → μ) :
    {fields : List (String × Slot)} → Row (Slot.Content ν) fields → Row (Slot.Content μ) fields
  | [], () => ()
  | field :: _, (x, rest) => (field.2.map f x, map f rest)

def traverse (f : ν → m μ) : {fields : List (String × Slot)} →
    Row (Slot.Content ν) fields → m (Row (Slot.Content μ) fields)
  | [], () => pure ()
  | field :: _, (x, rest) => return (← field.2.traverse f x, ← traverse f rest)

def mapMem : {fields : List (String × Slot)} → (row : Row (Slot.Content ν) fields) →
    ((c : ν) → c ∈ children row → μ) → Row (Slot.Content μ) fields
  | [], (), _ => ()
  | field :: _, (x, rest), f =>
    (field.2.mapMem x fun c h => f c (by simp [children, h]),
      mapMem rest fun c h => f c (by simp [children, h]))

@[simp] theorem mapMem_eq_map (f : ν → μ) : {fields : List (String × Slot)} →
    (row : Row (Slot.Content ν) fields) → mapMem row (fun c _ => f c) = map f row
  | [], () => rfl
  | field :: _, (x, rest) => by
    simp only [mapMem, map, Slot.mapMem_eq_map, mapMem_eq_map f rest]

end Row

namespace Layer

def children (l : Layer ν) : List ν := Row.children l.row

def map (f : ν → μ) (l : Layer ν) : Layer μ := ⟨l.kind, Row.map f l.row⟩

/-- Effects run once for each subtree, in order; kind and shape stay. -/
def traverse (f : ν → m μ) (l : Layer ν) : m (Layer μ) :=
  return ⟨l.kind, ← Row.traverse f l.row⟩

def mapMem (l : Layer ν) (f : (c : ν) → c ∈ l.children → μ) : Layer μ :=
  ⟨l.kind, Row.mapMem l.row f⟩

@[simp] theorem mapMem_eq_map (f : ν → μ) (l : Layer ν) :
    l.mapMem (fun c _ => f c) = l.map f :=
  congrArg (Layer.mk l.kind) (Row.mapMem_eq_map f l.row)

end Layer

namespace Node

/-- The direct subtrees, in the order in which they stand. -/
def children (n : Node) : List Node := n.layer.children

end Node

end PureEnum
