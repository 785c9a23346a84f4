import PureEnum.Tree.Node

/-! Looking inside a node. Each query answers for one shape of node and for no other. -/
namespace PureEnum.Node

def statements? : Node → Option (List Node)
  | .scope (.file _) statements
  | .scope .block statements
  | .scope .moduleBlock statements
  | .scope (.caseOf _) statements
  | .scope .defaultCase statements => some statements
  | _ => none

/-- A node with its statement list replaced and nothing else. -/
def withStatements? (statements : List Node) : Node → Option Node
  | .scope (.file name) _ => some (.scope (.file name) statements)
  | .scope .block _ => some (.scope .block statements)
  | .scope .moduleBlock _ => some (.scope .moduleBlock statements)
  | .scope (.caseOf test) _ => some (.scope (.caseOf test) statements)
  | .scope .defaultCase _ => some (.scope .defaultCase statements)
  | _ => none

def identifier? : Node → Option String
  | .identifier text => some text
  | _ => none

def isNamed (name : String) (n : Node) : Bool := n.identifier? == some name

def evaluated? : Node → Option Node
  | .expressionStatement expression => some expression
  | _ => none

/-- Target and value of a plain assignment. Compound assignments are not plain. -/
def assignment? : Node → Option (Node × Node)
  | .binaryExpression target "=" value => some (target, value)
  | _ => none

def properties? : Node → Option (List Node)
  | .objectLiteralExpression properties => some properties
  | _ => none

def isImport : Node → Bool
  | .importDeclaration .. => true
  | _ => false

def skipParens : Node → Node
  | .parenthesizedExpression expression => expression.skipParens
  | n => n

@[simp] theorem isNamed_iff {name : String} {n : Node} :
    n.isNamed name ↔ n = .identifier name := by
  cases n <;> simp [isNamed, identifier?]

@[simp] theorem statements?_scope (head : ScopeHead Node) (statements : List Node) :
    (scope head statements).statements? = some statements := by
  cases head <;> rfl

@[simp] theorem withStatements?_scope (head : ScopeHead Node) (own statements : List Node) :
    (scope head own).withStatements? statements = some (scope head statements) := by
  cases head <;> rfl

theorem statements?_eq_some {n : Node} {statements : List Node} :
    n.statements? = some statements ↔ ∃ head, n = .scope head statements := by
  cases n with
  | scope head own => simp
  | _ => simp [statements?]

theorem assignment?_eq_some {n target value : Node} :
    n.assignment? = some (target, value) ↔ n = .binaryExpression target "=" value := by
  constructor
  · intro h
    unfold assignment? at h
    split at h <;> simp_all
  · rintro rfl
    rfl

end PureEnum.Node
