import PureEnum.Limits
import PureEnum.Print.Doc
import PureEnum.Text.Quoted
import PureEnum.Tree.Query

/-! The text of a tree. Parentheses are printed only where the tree has them, so the text follows
the tree and not the precedence of operators. One rule per shape says how a node is put together
from the documents of its parts; a placeholder stands for nodes that are too deep. -/
namespace PureEnum

namespace Print

/-- Statements on lines of their own, each line ended. -/
def lines (ds : List Doc) : Doc := .concat (ds.map fun d => .margin ++ d ++ "\n")

def braced (ds : List Doc) : Doc :=
  if ds.isEmpty then "\x7b \x7d" else "\x7b\n" ++ .deeper (lines ds) ++ .margin ++ "\x7d"

/-- The statements of a clause, one level deeper, each on a new line. -/
def clauseBody (ds : List Doc) : Doc := .deeper (.concat (ds.map fun d => .line ++ d))

def modifiers (ms : Modifiers) : Doc :=
  .concat ((Modifier.spoken.filter ms.has).map fun m => (m.keyword ++ " " : String))

def jump (word : String) (label : Option String) : Doc :=
  word ++ .after " " (label.map .text) ++ ";"

def importOf (primary : Option String) (named : List String) (specifier : String) : Doc :=
  let names : Doc := if named.isEmpty then "" else
    "\x7b " ++ .commaSeparated (named.map .text) ++ " \x7d "
  "import " ++
    (match primary with
      | some name => name ++ (if named.isEmpty then " " else ", ") ++ names ++ "from "
      | none => if named.isEmpty then "" else names ++ "from ") ++
    Text.quote specifier ++ ";"

/-- A word operator is set off from its operand, a sign is not. -/
def prefixed (operator : String) : Doc :=
  if operator.toList.all Char.isAlpha then operator ++ " " else operator

/-- A multi-line comment shares the line of what follows it, any other ends its line. -/
def comment (c : Comment) : Doc := c.render ++ if c.multiLine then Doc.text " " else .line

variable (emit : Node → Doc)

def declarationList (keyword : Keyword) (ds : List (Declaration Node)) : Doc :=
  (keyword.text ++ " " : String) ++
    .commaSeparated (ds.map fun d => emit d.name ++ .after " = " (d.initializer.map emit))

/-- A declaration in the head of a loop has neither modifiers nor a semicolon. -/
def loopHead : Node → Doc
  | .variableStatement _ keyword ds => declarationList emit keyword ds
  | n => emit n

def parameters (ps : List (Parameter Node)) : Doc :=
  "(" ++ .commaSeparated (ps.map fun p =>
    (if p.rest then "..." else "" : String) ++ emit p.name ++
      .after " = " (p.initializer.map emit)) ++ ")"

def function (name : Option String) (ps : List (Parameter Node)) (body : Node) : Doc :=
  "function " ++ .after "" (name.map .text) ++ parameters emit ps ++ " " ++ emit body

def classOf (name : Option String) (heritage : Option Node) (members : List Node) : Doc :=
  "class" ++ .after " " (name.map .text) ++ .after " extends " (heritage.map emit) ++ " " ++
    braced (members.map emit)

def arguments (args : List Node) : Doc := "(" ++ .commaSeparated (args.map emit) ++ ")"

/-- A property name that is neither a name nor a literal is computed. -/
def propertyName : Node → Doc
  | .identifier text => emit (.identifier text)
  | .stringLiteral text => emit (.stringLiteral text)
  | .numericLiteral text => emit (.numericLiteral text)
  | n => "[" ++ emit n ++ "]"

def scope (head : ScopeHead Node) (statements : List Node) : Doc :=
  match head with
  | .file _ => lines (statements.map emit)
  | .block | .moduleBlock => braced (statements.map emit)
  | .caseOf test => "case " ++ emit test ++ ":" ++ clauseBody (statements.map emit)
  | .defaultCase => "default:" ++ clauseBody (statements.map emit)

def layer : Node → Doc
  | .scope head statements => scope emit head statements
  | .variableStatement ms keyword ds => modifiers ms ++ declarationList emit keyword ds ++ ";"
  | .expressionStatement e => emit e ++ ";"
  | .returnStatement e => "return" ++ .after " " (e.map emit) ++ ";"
  | .ifStatement c yes no => "if (" ++ emit c ++ ") " ++ emit yes ++ .after " else " (no.map emit)
  | .forStatement i c s body =>
    "for (" ++ .after "" (i.map (loopHead emit)) ++ ";" ++ .after " " (c.map emit) ++ ";" ++
      .after " " (s.map emit) ++ ") " ++ emit body
  | .forInStatement i e body => "for (" ++ loopHead emit i ++ " in " ++ emit e ++ ") " ++ emit body
  | .forOfStatement i e body => "for (" ++ loopHead emit i ++ " of " ++ emit e ++ ") " ++ emit body
  | .whileStatement c body => "while (" ++ emit c ++ ") " ++ emit body
  | .doStatement body c => "do " ++ emit body ++ " while (" ++ emit c ++ ");"
  | .switchStatement e clauses =>
    "switch (" ++ emit e ++ ") \x7b\n" ++ .deeper (lines (clauses.map emit)) ++ .margin ++ "\x7d"
  | .tryStatement b handler finish =>
    "try " ++ emit b ++ .after " " (handler.map emit) ++ .after " finally " (finish.map emit)
  | .catchClause binding b =>
    "catch " ++ .after "" (binding.map fun v => "(" ++ emit v ++ ") ") ++ emit b
  | .throwStatement e => "throw " ++ emit e ++ ";"
  | .labeledStatement label s => label ++ Doc.text ": " ++ emit s
  | .breakStatement label => jump "break" label
  | .continueStatement label => jump "continue" label
  | .emptyStatement => ";"
  | .functionDeclaration ms name ps body => modifiers ms ++ function emit name ps body
  | .classDeclaration ms name heritage members => modifiers ms ++ classOf emit name heritage members
  | .moduleDeclaration ms name body => modifiers ms ++ "namespace " ++ name ++ " " ++ emit body
  | .importDeclaration primary named specifier => importOf primary named specifier
  | .methodDeclaration ms name ps body =>
    modifiers ms ++ emit name ++ parameters emit ps ++ " " ++ emit body
  | .propertyDeclaration ms name e => modifiers ms ++ emit name ++ .after " = " (e.map emit) ++ ";"
  | .identifier text | .numericLiteral text | .raw text => text
  | .stringLiteral text => Text.quote text
  | .booleanLiteral value => if value then "true" else "false"
  | .nullLiteral => "null"
  | .thisKeyword => "this"
  | .objectLiteralExpression properties =>
    if properties.isEmpty then "\x7b\x7d"
    else "\x7b " ++ .commaSeparated (properties.map emit) ++ " \x7d"
  | .propertyAssignment name e => propertyName emit name ++ ": " ++ emit e
  | .shorthandPropertyAssignment name => name
  | .spreadAssignment e | .spreadElement e => "..." ++ emit e
  | .arrayLiteralExpression elements => "[" ++ .commaSeparated (elements.map emit) ++ "]"
  | .propertyAccessExpression e name => emit e ++ "." ++ name
  | .elementAccessExpression e key => emit e ++ "[" ++ emit key ++ "]"
  | .callExpression callee args => emit callee ++ arguments emit args
  | .newExpression callee args => "new " ++ emit callee ++ .after "" (args.map (arguments emit))
  | .binaryExpression l "," r => emit l ++ ", " ++ emit r
  | .binaryExpression l operator r => emit l ++ " " ++ operator ++ " " ++ emit r
  | .prefixUnaryExpression operator e => prefixed operator ++ emit e
  | .postfixUnaryExpression e operator => emit e ++ operator
  | .conditionalExpression c yes no => emit c ++ " ? " ++ emit yes ++ " : " ++ emit no
  | .parenthesizedExpression e => "(" ++ emit e ++ ")"
  | .functionExpression ms name ps body => modifiers ms ++ function emit name ps body
  | .arrowFunction ms ps body => modifiers ms ++ parameters emit ps ++ " => " ++ emit body
  | .classExpression name heritage members => classOf emit name heritage members
  | .annotatedExpression c e => comment c ++ emit e

end Print

namespace Node

/-- The document of a node that has room for `depth` nodes below one another, itself included. -/
def doc : (depth : Nat) → Node → Doc
  | 0, _ => "/* ... */"
  | depth + 1, n => Print.layer (doc depth) n

/-- The text of a node. Statements of a file end their lines, a lone statement does not. -/
def text (n : Node) : String := (n.doc maxPrintDepth).toString

end Node
end PureEnum
