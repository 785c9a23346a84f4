import PureEnum.Tree.Edit

/-! One-level revision with a mark. The parts of a shape are rebuilt one after the other, and a
mark says whether a subtree was replaced by then. A list is copied from its first replaced item
on. Records are rebuilt at once, under a mark of their own, and thrown away when it stays unset. -/
namespace PureEnum.Mark

variable {m : Type → Type} [Monad m] (visit : Node → m (Edit Node))

def node (n : Node) : StateT Bool m Node := do
  let e ← visit n
  if e.isFresh then set true
  return e.applyTo n

/-- The items of a list behind those before them, with the copy as it is by then. -/
def items (before : List Node) (copy : Option (List Node)) : List Node → m (Option (List Node))
  | [] => return copy
  | x :: xs => do
    let e ← visit x
    let copy := if copy.isNone && e.isFresh then some before else copy
    items (before ++ [x]) (copy.map (· ++ [e.applyTo x])) xs

def list (xs : List Node) : StateT Bool m (List Node) := do
  match ← (items visit [] none xs : m (Option (List Node))) with
  | some copy =>
    set true
    return copy
  | none => return xs

/-- The mark of what stands before is set aside and joined afterwards. -/
def records (rebuild : ρ → StateT Bool m ρ) (xs : List ρ) : StateT Bool m (List ρ) := do
  let before ← get
  set false
  let copies ← xs.mapM rebuild
  let changed ← get
  set (changed || before)
  return if changed then copies else xs

def node? (n : Option Node) : StateT Bool m (Option Node) := n.mapM (node visit)

def list? (xs : Option (List Node)) : StateT Bool m (Option (List Node)) := xs.mapM (list visit)

def declarations : List (Declaration Node) → StateT Bool m (List (Declaration Node)) :=
  records fun d => return ⟨← node visit d.name, ← node? visit d.initializer⟩

def parameters : List (Parameter Node) → StateT Bool m (List (Parameter Node)) :=
  records fun p => return ⟨← node visit p.name, ← node? visit p.initializer, p.rest⟩

def rebuild : Node → StateT Bool m Node
  | .scope (.file name) statements => return .scope (.file name) (← list visit statements)
  | .scope .block statements => return .scope .block (← list visit statements)
  | .scope .moduleBlock statements => return .scope .moduleBlock (← list visit statements)
  | .scope (.caseOf test) statements =>
    return .scope (.caseOf (← node visit test)) (← list visit statements)
  | .scope .defaultCase statements => return .scope .defaultCase (← list visit statements)
  | .variableStatement modifiers keyword declared =>
    return .variableStatement modifiers keyword (← declarations visit declared)
  | .expressionStatement expression => return .expressionStatement (← node visit expression)
  | .returnStatement expression => return .returnStatement (← node? visit expression)
  | .ifStatement condition yes no =>
    return .ifStatement (← node visit condition) (← node visit yes) (← node? visit no)
  | .forStatement initializer condition step body =>
    return .forStatement (← node? visit initializer) (← node? visit condition)
      (← node? visit step) (← node visit body)
  | .forInStatement initializer expression body =>
    return .forInStatement (← node visit initializer) (← node visit expression) (← node visit body)
  | .forOfStatement initializer expression body =>
    return .forOfStatement (← node visit initializer) (← node visit expression) (← node visit body)
  | .whileStatement condition body =>
    return .whileStatement (← node visit condition) (← node visit body)
  | .doStatement body condition =>
    return .doStatement (← node visit body) (← node visit condition)
  | .switchStatement expression clauses =>
    return .switchStatement (← node visit expression) (← list visit clauses)
  | .tryStatement block handler finish =>
    return .tryStatement (← node visit block) (← node? visit handler) (← node? visit finish)
  | .catchClause binding block =>
    return .catchClause (← node? visit binding) (← node visit block)
  | .throwStatement expression => return .throwStatement (← node visit expression)
  | .labeledStatement label statement => return .labeledStatement label (← node visit statement)
  | .functionDeclaration modifiers name declared body =>
    return .functionDeclaration modifiers name (← parameters visit declared) (← node visit body)
  | .classDeclaration modifiers name heritage members =>
    return .classDeclaration modifiers name (← node? visit heritage) (← list visit members)
  | .moduleDeclaration modifiers name body =>
    return .moduleDeclaration modifiers name (← node visit body)
  | .methodDeclaration modifiers name declared body =>
    return .methodDeclaration modifiers (← node visit name) (← parameters visit declared)
      (← node visit body)
  | .propertyDeclaration modifiers name initializer =>
    return .propertyDeclaration modifiers (← node visit name) (← node? visit initializer)
  | .objectLiteralExpression properties =>
    return .objectLiteralExpression (← list visit properties)
  | .propertyAssignment name initializer =>
    return .propertyAssignment (← node visit name) (← node visit initializer)
  | .spreadAssignment expression => return .spreadAssignment (← node visit expression)
  | .arrayLiteralExpression elements => return .arrayLiteralExpression (← list visit elements)
  | .propertyAccessExpression expression name =>
    return .propertyAccessExpression (← node visit expression) name
  | .elementAccessExpression expression argument =>
    return .elementAccessExpression (← node visit expression) (← node visit argument)
  | .callExpression callee arguments =>
    return .callExpression (← node visit callee) (← list visit arguments)
  | .newExpression callee arguments =>
    return .newExpression (← node visit callee) (← list? visit arguments)
  | .binaryExpression left operator right =>
    return .binaryExpression (← node visit left) operator (← node visit right)
  | .prefixUnaryExpression operator operand =>
    return .prefixUnaryExpression operator (← node visit operand)
  | .postfixUnaryExpression operand operator =>
    return .postfixUnaryExpression (← node visit operand) operator
  | .conditionalExpression condition yes no =>
    return .conditionalExpression (← node visit condition) (← node visit yes) (← node visit no)
  | .parenthesizedExpression expression =>
    return .parenthesizedExpression (← node visit expression)
  | .functionExpression modifiers name declared body =>
    return .functionExpression modifiers name (← parameters visit declared) (← node visit body)
  | .arrowFunction modifiers declared body =>
    return .arrowFunction modifiers (← parameters visit declared) (← node visit body)
  | .classExpression name heritage members =>
    return .classExpression name (← node? visit heritage) (← list visit members)
  | .spreadElement expression => return .spreadElement (← node visit expression)
  | .annotatedExpression comment expression =>
    return .annotatedExpression comment (← node visit expression)
  -- leaves
  | n@(.breakStatement _) | n@(.continueStatement _) | n@.emptyStatement
  | n@(.importDeclaration ..) | n@(.identifier _) | n@(.numericLiteral _) | n@(.stringLiteral _)
  | n@(.booleanLiteral _) | n@.nullLiteral | n@.thisKeyword | n@(.shorthandPropertyAssignment _)
  | n@(.raw _) => return n

/-- The rebuilt node, or none when no subtree was replaced. -/
def revise (n : Node) : m (Option Node) := do
  let (rebuilt, changed) ← (rebuild visit n).run false
  return if changed then some rebuilt else none

end PureEnum.Mark
