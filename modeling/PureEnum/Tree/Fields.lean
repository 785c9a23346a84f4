import PureEnum.Tree.Slot

/-! The fields of each kind of node, with the names under which they are written. A node has one
content for each field of its kind. The names of a kind differ, and none is that of the kind's own
entry in the written form. -/
namespace PureEnum

/-- The fields of a kind and what each holds, in the order in which they are written. -/
abbrev Kind.fields : Kind → List (String × Slot)
  | .sourceFile => [("file_name", .text), ("statements", .nodes)]
  | .block => [("statements", .nodes)]
  | .moduleBlock => [("statements", .nodes)]
  | .caseClause => [("expression", .node), ("statements", .nodes)]
  | .defaultClause => [("statements", .nodes)]
  | .variableStatement => [("modifiers", .modifiers), ("declaration_kind", .keyword),
      ("declarations", .declarations)]
  | .expressionStatement => [("expression", .node)]
  | .returnStatement => [("expression", .node?)]
  | .ifStatement => [("condition", .node), ("then_statement", .node), ("else_statement", .node?)]
  | .forStatement => [("initializer", .node?), ("condition", .node?), ("incrementor", .node?),
      ("body", .node)]
  | .forInStatement => [("initializer", .node), ("expression", .node), ("body", .node)]
  | .forOfStatement => [("initializer", .node), ("expression", .node), ("body", .node)]
  | .whileStatement => [("condition", .node), ("body", .node)]
  | .doStatement => [("body", .node), ("condition", .node)]
  | .switchStatement => [("expression", .node), ("clauses", .nodes)]
  | .tryStatement => [("try_block", .node), ("catch_clause", .node?), ("finally_block", .node?)]
  | .catchClause => [("variable", .node?), ("block", .node)]
  | .throwStatement => [("expression", .node)]
  | .labeledStatement => [("label", .text), ("statement", .node)]
  | .breakStatement => [("label", .text?)]
  | .continueStatement => [("label", .text?)]
  | .emptyStatement => []
  | .functionDeclaration => [("modifiers", .modifiers), ("name", .text?),
      ("parameters", .parameters), ("body", .node)]
  | .classDeclaration => [("modifiers", .modifiers), ("name", .text?), ("heritage", .node?),
      ("members", .nodes)]
  | .moduleDeclaration => [("modifiers", .modifiers), ("name", .text), ("body", .node)]
  | .importDeclaration => [("default_binding", .text?), ("named_bindings", .texts),
      ("module_specifier", .text)]
  | .methodDeclaration => [("modifiers", .modifiers), ("name", .node),
      ("parameters", .parameters), ("body", .node)]
  | .propertyDeclaration => [("modifiers", .modifiers), ("name", .node), ("initializer", .node?)]
  | .identifier => [("text", .text)]
  | .numericLiteral => [("text", .text)]
  | .stringLiteral => [("text", .text)]
  | .booleanLiteral => [("value", .flag)]
  | .nullLiteral => []
  | .thisKeyword => []
  | .objectLiteralExpression => [("properties", .nodes)]
  | .propertyAssignment => [("name", .node), ("initializer", .node)]
  | .shorthandPropertyAssignment => [("name", .text)]
  | .spreadAssignment => [("expression", .node)]
  | .arrayLiteralExpression => [("elements", .nodes)]
  | .propertyAccessExpression => [("expression", .node), ("name", .text)]
  | .elementAccessExpression => [("expression", .node), ("argument", .node)]
  | .callExpression => [("expression", .node), ("arguments", .nodes)]
  | .newExpression => [("expression", .node), ("arguments", .nodes?)]
  | .binaryExpression => [("left", .node), ("operator", .text), ("right", .node)]
  | .prefixUnaryExpression => [("operator", .text), ("operand", .node)]
  | .postfixUnaryExpression => [("operand", .node), ("operator", .text)]
  | .conditionalExpression => [("condition", .node), ("when_true", .node), ("when_false", .node)]
  | .parenthesizedExpression => [("expression", .node)]
  | .functionExpression => [("modifiers", .modifiers), ("name", .text?),
      ("parameters", .parameters), ("body", .node)]
  | .arrowFunction => [("modifiers", .modifiers), ("parameters", .parameters), ("body", .node)]
  | .classExpression => [("name", .text?), ("heritage", .node?), ("members", .nodes)]
  | .spreadElement => [("expression", .node)]
  | .annotatedExpression => [("comment", .comment), ("expression", .node)]
  | .raw => [("text", .text)]

theorem Kind.nodup_fields (kind : Kind) : (kind.fields.map Prod.fst).Nodup := by
  cases kind <;> decide

theorem Kind.kind_notMem_fields (kind : Kind) : "kind" ∉ kind.fields.map Prod.fst := by
  cases kind <;> decide

end PureEnum
