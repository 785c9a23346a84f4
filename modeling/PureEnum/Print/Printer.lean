import PureEnum.Print.Node

/-! Printing as a sequence of writes. A printer appends to what it has written and counts the
levels of indentation and the nodes that are open; what raises a count lowers it again. One rule
per shape says what is written for a node, given how the nodes below are written. -/
namespace PureEnum

structure Printer where
  output : String
  level : Nat
  /-- How many nodes are open. -/
  depth : Nat
  /-- Stands for a node that is too deep. -/
  placeholder : String

namespace Printer

def start : Printer := ⟨"", 0, 0, "/* ... */"⟩

abbrev Action := StateM Printer Unit

def write (s : String) : Action := modify fun p => { p with output := p.output ++ s }

def writeLine : Action := write "\n"

def writeIndent : Action := do
  (List.replicate (← get).level "    ").forM write

def increase : Action := modify fun p => { p with level := p.level + 1 }

def decrease : Action := modify fun p => { p with level := p.level - 1 }

def quoted (s : String) : Action := do
  write "\x22"
  s.toList.forM fun c => write (String.ofList (Text.escape c))
  write "\x22"

def modifiers (ms : Modifiers) : Action :=
  Modifier.spoken.forM fun m => if ms.has m then write (m.keyword ++ " ") else pure ()

def jump (word : String) (label : Option String) : Action := do
  write word
  label.forM fun label => do
    write " "
    write label
  write ";"

def importOf (primary : Option String) (named : List String) (specifier : String) : Action := do
  write "import "
  primary.forM fun name => do
    write name
    write (if named.isEmpty then " " else ", ")
  if !named.isEmpty then
    write "\x7b "
    write (", ".intercalate named)
    write " \x7d "
  if primary.isSome || !named.isEmpty then write "from "
  quoted specifier
  write ";"

def comment (c : Comment) : Action := do
  write c.render
  if c.multiLine then
    write " "
  else
    writeLine
    writeIndent

/-- A comma has no blank in front. -/
def infixed (operator : String) : Action :=
  if operator = "," then write ", "
  else do
    write " "
    write operator
    write " "

def prefixed (operator : String) : Action := do
  write operator
  if operator.toList.all Char.isAlpha then write " "

def commaSeparated (each : α → Action) : List α → Action
  | [] => pure ()
  | x :: xs => do
    each x
    xs.forM fun y => do
      write ", "
      each y

section Rules

variable (emit : Node → Action)

def after (word : String) (part : Option Node) : Action :=
  part.forM fun n => do
    write word
    emit n

def statementList (statements : List Node) : Action :=
  statements.forM fun s => do
    writeIndent
    emit s
    writeLine

def bracedStatements (statements : List Node) : Action :=
  if statements.isEmpty then write "\x7b \x7d"
  else do
    write "\x7b"
    writeLine
    increase
    statementList emit statements
    decrease
    writeIndent
    write "\x7d"

def clauseBody (statements : List Node) : Action := do
  increase
  statements.forM fun s => do
    writeLine
    writeIndent
    emit s
  decrease

def declarationList (keyword : Keyword) (ds : List (Declaration Node)) : Action := do
  write keyword.text
  write " "
  commaSeparated (fun d => do
    emit d.name
    after emit " = " d.initializer) ds

def loopHead : Node → Action
  | .variableStatement _ keyword ds => declarationList emit keyword ds
  | n => emit n

def loopOver (word : String) (initializer expression body : Node) : Action := do
  write "for ("
  loopHead emit initializer
  write " "
  write word
  write " "
  emit expression
  write ") "
  emit body

def parameters (ps : List (Parameter Node)) : Action := do
  write "("
  commaSeparated (fun p => do
    if p.rest then write "..."
    emit p.name
    after emit " = " p.initializer) ps
  write ")"

def function (name : Option String) (ps : List (Parameter Node)) (body : Node) : Action := do
  write "function "
  name.forM write
  parameters emit ps
  write " "
  emit body

def classOf (name : Option String) (heritage : Option Node) (members : List Node) : Action := do
  write "class"
  name.forM fun name => do
    write " "
    write name
  after emit " extends " heritage
  write " "
  bracedStatements emit members

def arguments (args : List Node) : Action := do
  write "("
  commaSeparated emit args
  write ")"

def propertyName : Node → Action
  | .identifier text => emit (.identifier text)
  | .stringLiteral text => emit (.stringLiteral text)
  | .numericLiteral text => emit (.numericLiteral text)
  | n => do
    write "["
    emit n
    write "]"

def scope (head : ScopeHead Node) (statements : List Node) : Action :=
  match head with
  | .file _ => statementList emit statements
  | .block | .moduleBlock => bracedStatements emit statements
  | .caseOf test => do
    write "case "
    emit test
    write ":"
    clauseBody emit statements
  | .defaultCase => do
    write "default:"
    clauseBody emit statements

def layer : Node → Action
  | .scope head statements => scope emit head statements
  | .variableStatement ms keyword ds => do
    modifiers ms
    declarationList emit keyword ds
    write ";"
  | .expressionStatement e => do
    emit e
    write ";"
  | .returnStatement e => do
    write "return"
    after emit " " e
    write ";"
  | .ifStatement c yes no => do
    write "if ("
    emit c
    write ") "
    emit yes
    after emit " else " no
  | .forStatement i c s body => do
    write "for ("
    i.forM (loopHead emit)
    write ";"
    after emit " " c
    write ";"
    after emit " " s
    write ") "
    emit body
  | .forInStatement i e body => loopOver emit "in" i e body
  | .forOfStatement i e body => loopOver emit "of" i e body
  | .whileStatement c body => do
    write "while ("
    emit c
    write ") "
    emit body
  | .doStatement body c => do
    write "do "
    emit body
    write " while ("
    emit c
    write ");"
  | .switchStatement e clauses => do
    write "switch ("
    emit e
    write ") \x7b"
    writeLine
    increase
    statementList emit clauses
    decrease
    writeIndent
    write "\x7d"
  | .tryStatement b handler finish => do
    write "try "
    emit b
    after emit " " handler
    after emit " finally " finish
  | .catchClause binding b => do
    write "catch "
    binding.forM fun v => do
      write "("
      emit v
      write ") "
    emit b
  | .throwStatement e => do
    write "throw "
    emit e
    write ";"
  | .labeledStatement label s => do
    write label
    write ": "
    emit s
  | .breakStatement label => jump "break" label
  | .continueStatement label => jump "continue" label
  | .emptyStatement => write ";"
  | .functionDeclaration ms name ps body | .functionExpression ms name ps body => do
    modifiers ms
    function emit name ps body
  | .classDeclaration ms name heritage members => do
    modifiers ms
    classOf emit name heritage members
  | .classExpression name heritage members => classOf emit name heritage members
  | .moduleDeclaration ms name body => do
    modifiers ms
    write "namespace "
    write name
    write " "
    emit body
  | .importDeclaration primary named specifier => importOf primary named specifier
  | .methodDeclaration ms name ps body => do
    modifiers ms
    emit name
    parameters emit ps
    write " "
    emit body
  | .propertyDeclaration ms name e => do
    modifiers ms
    emit name
    after emit " = " e
    write ";"
  | .identifier text | .numericLiteral text | .raw text => write text
  | .stringLiteral text => quoted text
  | .booleanLiteral value => write (if value then "true" else "false")
  | .nullLiteral => write "null"
  | .thisKeyword => write "this"
  | .objectLiteralExpression properties =>
    if properties.isEmpty then write "\x7b\x7d"
    else do
      write "\x7b "
      commaSeparated emit properties
      write " \x7d"
  | .propertyAssignment name e => do
    propertyName emit name
    write ": "
    emit e
  | .shorthandPropertyAssignment name => write name
  | .spreadAssignment e | .spreadElement e => do
    write "..."
    emit e
  | .arrayLiteralExpression elements => do
    write "["
    commaSeparated emit elements
    write "]"
  | .propertyAccessExpression e name => do
    emit e
    write "."
    write name
  | .elementAccessExpression e key => do
    emit e
    write "["
    emit key
    write "]"
  | .callExpression callee args => do
    emit callee
    arguments emit args
  | .newExpression callee args => do
    write "new "
    emit callee
    args.forM (arguments emit)
  | .binaryExpression l operator r => do
    emit l
    infixed operator
    emit r
  | .prefixUnaryExpression operator e => do
    prefixed operator
    emit e
  | .postfixUnaryExpression e operator => do
    emit e
    write operator
  | .conditionalExpression c yes no => do
    emit c
    write " ? "
    emit yes
    write " : "
    emit no
  | .parenthesizedExpression e => do
    write "("
    emit e
    write ")"
  | .arrowFunction ms ps body => do
    modifiers ms
    parameters emit ps
    write " => "
    emit body
  | .annotatedExpression c e => do
    comment c
    emit e

end Rules

/-- A node that may not be opened is replaced. -/
def opening (inside : Action) : Action := do
  let p ← get
  if maxPrintDepth ≤ p.depth then
    write p.placeholder
  else
    modify fun p => { p with depth := p.depth + 1 }
    inside
    modify fun p => { p with depth := p.depth - 1 }

/-- Writes a node. The nodes that are open count down, and there are no more of them than may be
open, so that none is left to count where a node is replaced. -/
def emitWithin : (room : Nat) → Node → Action
  | 0, _ => do write (← get).placeholder
  | room + 1, n => opening (layer (emitWithin room) n)

def emit : Node → Action := emitWithin maxPrintDepth

end Printer
end PureEnum
