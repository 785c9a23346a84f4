import PureEnum.Print.Printer
import PureEnum.Proofs.Printing

/-! A printer writes documents. What it writes for a node, from any level of indentation and under
any number of open nodes, is the document of the node with the room that is left, set at that
level; and it has both counts back afterwards. So what it writes for a tree is the text of it. -/
namespace PureEnum

namespace Printer

def typeset (p : Printer) (d : Doc) : Printer := { p with output := d.writeAt p.level p.output }

@[simp] theorem level_typeset (p : Printer) (d : Doc) : (p.typeset d).level = p.level := rfl

@[simp] theorem depth_typeset (p : Printer) (d : Doc) : (p.typeset d).depth = p.depth := rfl

@[simp] theorem placeholder_typeset (p : Printer) (d : Doc) :
    (p.typeset d).placeholder = p.placeholder := rfl

@[simp] theorem typeset_typeset (p : Printer) (a b : Doc) :
    (p.typeset a).typeset b = p.typeset (a ++ b) := rfl

@[simp] theorem typeset_empty (p : Printer) : p.typeset .empty = p := by
  simp [typeset, Doc.empty, Doc.writeAt]

/-- Documents are set alike where their characters are the same at every level. -/
theorem typeset_congr {a b : Doc} (same : ∀ level, a.chars level = b.chars level) (p : Printer) :
    p.typeset a = p.typeset b := by
  rw [typeset, typeset, a.writeAt_eq, b.writeAt_eq, String.toList_inj.mp (same p.level)]

/-- What an action writes under so many open nodes, with such a placeholder. All else stays. -/
def Writes (depth : Nat) (placeholder : String) (act : Action) (d : Doc) : Prop :=
  ∀ p : Printer, p.depth = depth → p.placeholder = placeholder →
    act.run p = ((), p.typeset d)

@[simp] theorem run_seq (first rest : Action) (p : Printer) :
    (do first; rest : Action).run p = rest.run (first.run p).2 := rfl

@[simp] theorem run_pure (p : Printer) : (pure () : Action).run p = ((), p) := rfl

@[simp] theorem run_write (s : String) (p : Printer) :
    (write s).run p = ((), p.typeset (.text s)) := rfl

@[simp] theorem run_writeLine (p : Printer) : writeLine.run p = ((), p.typeset (.text "\n")) := rfl

section Writes

variable {depth : Nat} {placeholder : String} {act rest : Action} {a b d : Doc}

theorem Writes.text (s : String) : Writes depth placeholder (write s) (.text s) :=
  fun _ _ _ => rfl

theorem Writes.nothing : Writes depth placeholder (pure ()) .empty :=
  fun p _ _ => by rw [typeset_empty]; rfl

theorem Writes.seq (first : Writes depth placeholder act a)
    (second : Writes depth placeholder rest b) :
    Writes depth placeholder (do act; rest) (a ++ b) := by
  intro p opened replaces
  rw [run_seq, first p opened replaces]
  exact second (p.typeset a) opened replaces

theorem Writes.congr (writes : Writes depth placeholder act a)
    (same : ∀ level, a.chars level = b.chars level) : Writes depth placeholder act b := by
  intro p opened replaces
  rw [writes p opened replaces, typeset_congr same]

theorem Writes.forM {α : Type} {each : α → Action} {doc : α → Doc} {xs : List α}
    (writes : ∀ x ∈ xs, Writes depth placeholder (each x) (doc x)) :
    Writes depth placeholder (xs.forM each) (.concat (xs.map doc)) := by
  induction xs with
  | nil => exact .nothing
  | cons x xs ih =>
    obtain ⟨first, others⟩ := List.forall_mem_cons.mp writes
    exact first.seq (ih others)

theorem Writes.deeper (writes : Writes depth placeholder act d) :
    Writes depth placeholder (do increase; act; decrease) (.deeper d) := by
  intro p opened replaces
  have inside := writes { p with level := p.level + 1 } opened replaces
  change decrease.run (act.run { p with level := p.level + 1 }).2 = _
  rw [inside]
  rfl

theorem Writes.margin : Writes depth placeholder writeIndent .margin := by
  intro p _ _
  have blanks (level : Nat) : ((List.replicate level "    ").forM write).run p =
      ((), { p with output := p.output ++ Doc.indentation level }) := by
    induction level with
    | zero => exact congrArg (Prod.mk ()) (by simp [Doc.indentation])
    | succ level ih =>
      rw [List.replicate_succ', List.forM_eq_forM, List.forM_append, run_seq, ← List.forM_eq_forM,
        ih, Doc.indentation, ← String.append_assoc]
      rfl
  exact blanks p.level

theorem Writes.commaSeparated {α : Type} {each : α → Action} {doc : α → Doc} {xs : List α}
    (writes : ∀ x ∈ xs, Writes depth placeholder (each x) (doc x)) :
    Writes depth placeholder (commaSeparated each xs) (.commaSeparated (xs.map doc)) := by
  cases xs with
  | nil => exact .nothing
  | cons x xs =>
    obtain ⟨first, others⟩ := List.forall_mem_cons.mp writes
    rw [List.map_cons, Doc.commaSeparated, List.map_map]
    exact first.seq (.forM fun y member => (Writes.text ", ").seq (others y member))

theorem writes_quoted (s : String) :
    Writes depth placeholder (quoted s) (.text (Text.quote s)) := by
  have each : ∀ c ∈ s.toList, Writes depth placeholder (write (String.ofList (Text.escape c)))
      (.text (String.ofList (Text.escape c))) := fun c _ => .text _
  refine ((Writes.text _).seq ((Writes.forM each).seq (.text _))).congr fun level => ?_
  simp [Text.quote, Text.quoteChars, List.flatMap_map]

theorem writes_modifiers (ms : Modifiers) :
    Writes depth placeholder (modifiers ms) (Print.modifiers ms) := by
  have each : ∀ m ∈ Modifier.spoken, Writes depth placeholder
      (if ms.has m then write (m.keyword ++ " ") else pure ())
      (if ms.has m then .text (m.keyword ++ " ") else .empty) := by
    intro m _
    split
    · exact .text _
    · exact .nothing
  refine (Writes.forM each).congr fun level => ?_
  rw [Print.modifiers, Doc.chars_concat, Doc.chars_concat]
  induction Modifier.spoken with
  | nil => rfl
  | cons m others ih =>
    rw [List.map_cons, List.flatMap_cons, ih, List.filter_cons]
    split <;> simp

theorem writes_option {part : Option α} {each : α → Action} {doc : α → Doc}
    (writes : ∀ x ∈ part, Writes depth placeholder (each x) (doc x)) :
    Writes depth placeholder (part.forM each) (.after "" (part.map doc)) := by
  cases part with
  | none => exact .nothing
  | some x => exact (writes x rfl).congr fun level => by simp [Doc.after]

theorem writes_jump (word : String) (label : Option String) :
    Writes depth placeholder (jump word label) (Print.jump word label) := by
  have named : Writes depth placeholder (label.forM fun label => do write " "; write label)
      (.after " " (label.map .text)) := by
    cases label with
    | none => exact .nothing
    | some label => exact (Writes.text _).seq (.text _)
  refine ((Writes.text word).seq (named.seq (.text ";"))).congr fun level => ?_
  simp [Print.jump]

theorem writes_prefixed (operator : String) :
    Writes depth placeholder (prefixed operator) (Print.prefixed operator) := by
  by_cases word : operator.toList.all Char.isAlpha
  · rw [prefixed, Print.prefixed, if_pos word, if_pos word]
    exact (Writes.text operator).seq (.text " ")
  · rw [prefixed, Print.prefixed, if_neg word, if_neg word]
    exact ((Writes.text operator).seq .nothing).congr fun level => by simp

theorem writes_comment (c : Comment) :
    Writes depth placeholder (comment c) (Print.comment c) := by
  refine (Writes.text c.render).seq ?_
  split
  · exact .text " "
  · exact (Writes.text "\n").seq .margin

theorem chars_commaSeparated (level : Nat) (ds : List Doc) :
    (Doc.commaSeparated ds).chars level = ", ".toList.intercalate (ds.map (Doc.chars level)) := by
  cases ds with
  | nil => simp [Doc.commaSeparated]
  | cons d ds =>
    induction ds generalizing d with
    | nil => simp [Doc.commaSeparated]
    | cons next ds ih =>
      have rest := ih next
      rw [List.map_cons] at rest
      rw [List.map_cons, List.map_cons, List.intercalate_cons_cons, ← rest]
      simp [Doc.commaSeparated]

theorem writes_importOf (primary : Option String) (named : List String) (specifier : String) :
    Writes depth placeholder (importOf primary named specifier)
      (Print.importOf primary named specifier) := by
  have names : Writes depth placeholder
      (if !named.isEmpty then do write "\x7b "; write (", ".intercalate named); write " \x7d "
        else pure ())
      (if named.isEmpty then "" else "\x7b " ++ .commaSeparated (named.map .text) ++ " \x7d ") := by
    cases named with
    | nil => exact .nothing
    | cons first named =>
      refine ((Writes.text _).seq ((Writes.text _).seq (.text _))).congr fun level => ?_
      simp [chars_commaSeparated, Function.comp_def]
  cases primary with
  | none =>
    cases named with
    | nil =>
      exact ((Writes.text _).seq (Writes.nothing.seq (Writes.nothing.seq (Writes.nothing.seq
        ((writes_quoted specifier).seq (.text _)))))).congr fun level => by simp [Print.importOf]
    | cons first named =>
      exact ((Writes.text _).seq (Writes.nothing.seq (names.seq ((Writes.text "from ").seq
        ((writes_quoted specifier).seq (.text _)))))).congr fun level => by simp [Print.importOf]
  | some name =>
    cases named with
    | nil =>
      exact ((Writes.text _).seq (((Writes.text name).seq (.text " ")).seq (Writes.nothing.seq
        ((Writes.text "from ").seq ((writes_quoted specifier).seq (.text _)))))).congr
          fun level => by simp [Print.importOf]
    | cons first named =>
      exact ((Writes.text _).seq (((Writes.text name).seq (.text ", ")).seq (names.seq
        ((Writes.text "from ").seq ((writes_quoted specifier).seq (.text _)))))).congr
          fun level => by simp [Print.importOf]

section Rules

variable {emit : Node → Action} {docs : Node → Doc}

theorem writes_after {word : String} {part : Option Node}
    (writes : ∀ c ∈ part.toList, Writes depth placeholder (emit c) (docs c)) :
    Writes depth placeholder (after emit word part) (.after word (part.map docs)) := by
  cases part with
  | none => exact .nothing
  | some c => exact (Writes.text word).seq (writes c List.mem_cons_self)

theorem writes_statementList {statements : List Node}
    (writes : ∀ c ∈ statements, Writes depth placeholder (emit c) (docs c)) :
    Writes depth placeholder (statementList emit statements)
      (Print.lines (statements.map docs)) := by
  rw [Print.lines, List.map_map]
  refine Writes.forM fun c member => ?_
  refine (Writes.margin.seq ((writes c member).seq (.text "\n"))).congr fun level => ?_
  simp

theorem writes_bracedStatements {statements : List Node}
    (writes : ∀ c ∈ statements, Writes depth placeholder (emit c) (docs c)) :
    Writes depth placeholder (bracedStatements emit statements)
      (Print.braced (statements.map docs)) := by
  cases statements with
  | nil => exact .text _
  | cons s statements =>
    have lines := (writes_statementList writes).deeper
    refine ((Writes.text "\x7b").seq ((Writes.text "\n").seq
      (lines.seq (Writes.margin.seq (.text "\x7d"))))).congr fun level => ?_
    simp [Print.braced]

theorem writes_clauseBody {statements : List Node}
    (writes : ∀ c ∈ statements, Writes depth placeholder (emit c) (docs c)) :
    Writes depth placeholder (clauseBody emit statements)
      (Print.clauseBody (statements.map docs)) := by
  refine Writes.deeper ?_
  rw [List.map_map]
  refine Writes.forM fun c member => ?_
  exact ((Writes.text "\n").seq (Writes.margin.seq (writes c member))).congr fun level => by simp

theorem writes_declarationList (keyword : Keyword) {ds : List (Declaration Node)}
    (writes : ∀ c ∈ ds.flatMap Declaration.children, Writes depth placeholder (emit c) (docs c)) :
    Writes depth placeholder (declarationList emit keyword ds)
      (Print.declarationList docs keyword ds) := by
  have each : ∀ d ∈ ds, Writes depth placeholder (do emit d.name; after emit " = " d.initializer)
      (docs d.name ++ .after " = " (d.initializer.map docs)) := by
    intro d member
    have inside := fun c child => writes c (List.mem_flatMap.mpr ⟨d, member, child⟩)
    exact (inside d.name List.mem_cons_self).seq
      (writes_after fun c child => inside c (List.mem_cons_of_mem _ child))
  refine ((Writes.text _).seq ((Writes.text " ").seq (.commaSeparated each))).congr fun level => ?_
  simp [Print.declarationList]

theorem writes_loopHead {i : Node}
    (writes : ∀ c ∈ Print.headParts i, Writes depth placeholder (emit c) (docs c)) :
    Writes depth placeholder (loopHead emit i) (Print.loopHead docs i) := by
  cases i with
  | variableStatement _ keyword ds => exact writes_declarationList keyword writes
  | _ => exact writes _ List.mem_cons_self

theorem writes_parameters {ps : List (Parameter Node)}
    (writes : ∀ c ∈ ps.flatMap Parameter.children, Writes depth placeholder (emit c) (docs c)) :
    Writes depth placeholder (parameters emit ps) (Print.parameters docs ps) := by
  have each : ∀ p ∈ ps, Writes depth placeholder
      (do
        if p.rest then write "..."
        emit p.name
        after emit " = " p.initializer)
      ((if p.rest then "..." else "" : String) ++ docs p.name ++
        .after " = " (p.initializer.map docs)) := by
    intro p member
    have inside := fun c child => writes c (List.mem_flatMap.mpr ⟨p, member, child⟩)
    have given : Writes depth placeholder (after emit " = " p.initializer)
        (.after " = " (p.initializer.map docs)) :=
      writes_after fun c child => inside c (List.mem_cons_of_mem _ child)
    have named := (inside p.name List.mem_cons_self).seq given
    by_cases rest : p.rest
    · simp only [rest]
      exact ((Writes.text "...").seq named).congr fun level => by simp
    · simp only [rest]
      exact (Writes.nothing.seq named).congr fun level => by simp
  refine ((Writes.text "(").seq ((Writes.commaSeparated each).seq (.text ")"))).congr ?_
  exact fun level => by simp [Print.parameters]

theorem writes_function {name : Option String} {ps : List (Parameter Node)} {body : Node}
    (inside : ∀ c ∈ ps.flatMap Parameter.children, Writes depth placeholder (emit c) (docs c))
    (writes : Writes depth placeholder (emit body) (docs body)) :
    Writes depth placeholder (function emit name ps body) (Print.function docs name ps body) := by
  have named : Writes depth placeholder (name.forM write) (.after "" (name.map .text)) :=
    writes_option fun s _ => .text s
  exact ((Writes.text "function ").seq (named.seq ((writes_parameters inside).seq
    ((Writes.text " ").seq writes)))).congr fun level => by simp [Print.function]

theorem writes_classOf {name : Option String} {heritage : Option Node} {members : List Node}
    (base : ∀ c ∈ heritage.toList, Writes depth placeholder (emit c) (docs c))
    (writes : ∀ c ∈ members, Writes depth placeholder (emit c) (docs c)) :
    Writes depth placeholder (classOf emit name heritage members)
      (Print.classOf docs name heritage members) := by
  have named : Writes depth placeholder (name.forM fun name => do write " "; write name)
      (.after " " (name.map .text)) := by
    cases name with
    | none => exact .nothing
    | some name => exact (Writes.text _).seq (.text _)
  exact ((Writes.text "class").seq (named.seq ((writes_after base).seq ((Writes.text " ").seq
    (writes_bracedStatements writes))))).congr fun level => by simp [Print.classOf]

theorem writes_arguments {arguments : List Node}
    (writes : ∀ c ∈ arguments, Writes depth placeholder (emit c) (docs c)) :
    Writes depth placeholder (Printer.arguments emit arguments) (Print.arguments docs arguments) :=
  ((Writes.text "(").seq ((Writes.commaSeparated writes).seq (.text ")"))).congr fun level => by
    simp [Print.arguments]

theorem writes_propertyName {n : Node} (writes : Writes depth placeholder (emit n) (docs n)) :
    Writes depth placeholder (propertyName emit n) (Print.propertyName docs n) := by
  cases n with
  | identifier | stringLiteral | numericLiteral => exact writes
  | _ =>
    exact ((Writes.text "[").seq (writes.seq (.text "]"))).congr fun level => by
      simp [Print.propertyName]

theorem writes_scope {head : ScopeHead Node} {statements : List Node}
    (writes : ∀ c ∈ (Node.scope head statements).children,
      Writes depth placeholder (emit c) (docs c)) :
    Writes depth placeholder (scope emit head statements) (Print.scope docs head statements) := by
  rw [Node.children_scope, List.forall_mem_append] at writes
  cases head with
  | file => exact writes_statementList writes.2
  | block | moduleBlock => exact writes_bracedStatements writes.2
  | caseOf test =>
    exact ((Writes.text "case ").seq ((writes.1 test List.mem_cons_self).seq ((Writes.text ":").seq
      (writes_clauseBody writes.2)))).congr fun level => by simp [Print.scope]
  | defaultCase => exact (Writes.text "default:").seq (writes_clauseBody writes.2)

theorem writes_loopOver {word : String} {i e body : Node}
    (start : ∀ c ∈ Print.headParts i, Writes depth placeholder (emit c) (docs c))
    (source : Writes depth placeholder (emit e) (docs e))
    (writes : Writes depth placeholder (emit body) (docs body)) :
    Writes depth placeholder (loopOver emit word i e body)
      ("for (" ++ Print.loopHead docs i ++ " " ++ word ++ " " ++ docs e ++ ") " ++ docs body) := by
  have inside := source.seq ((Writes.text ") ").seq writes)
  exact ((Writes.text "for (").seq ((writes_loopHead start).seq ((Writes.text " ").seq
    ((Writes.text word).seq ((Writes.text " ").seq inside))))).congr fun level => by simp

/-- What is written for a node is put together from what is written for its parts. -/
theorem writes_layer {n : Node}
    (writes : ∀ c ∈ Print.parts n, Writes depth placeholder (emit c) (docs c)) :
    Writes depth placeholder (layer emit n) (Print.layer docs n) := by
  cases n
  case scope => exact writes_scope writes
  case breakStatement label | continueStatement label => exact writes_jump _ label
  case importDeclaration primary named specifier => exact writes_importOf primary named specifier
  case stringLiteral s => exact writes_quoted s
  all_goals
    simp only [Print.parts, Node.children, Node.layer, Layer.children, Row.children, Slot.children,
      Cell.children, List.append_nil, List.nil_append, List.forall_mem_append,
      List.forall_mem_singleton] at writes
  case variableStatement ms keyword ds =>
    exact ((writes_modifiers ms).seq ((writes_declarationList keyword writes).seq
      (.text ";"))).congr fun level => by simp [Print.layer]
  case expressionStatement | postfixUnaryExpression => exact writes.seq (.text _)
  case returnStatement e =>
    exact ((Writes.text "return").seq ((writes_after writes).seq (.text ";"))).congr
      fun level => by simp [Print.layer]
  case ifStatement c yes no =>
    obtain ⟨condition, chosen, other⟩ := writes
    exact ((Writes.text "if (").seq (condition.seq ((Writes.text ") ").seq (chosen.seq
      (writes_after other))))).congr fun level => by simp [Print.layer]
  case forStatement i c s body =>
    obtain ⟨start, condition, step, inside⟩ := writes
    have head : Writes depth placeholder (i.forM (loopHead emit))
        (.after "" (i.map (Print.loopHead docs))) := writes_option fun n present =>
      writes_loopHead fun c member => start c (List.mem_flatMap.mpr
        ⟨n, Option.mem_toList.mpr present, member⟩)
    exact ((Writes.text "for (").seq (head.seq ((Writes.text ";").seq ((writes_after condition).seq
      ((Writes.text ";").seq ((writes_after step).seq ((Writes.text ") ").seq inside))))))).congr
        fun level => by simp [Print.layer]
  case forInStatement i e body | forOfStatement i e body =>
    obtain ⟨start, pair⟩ := writes
    exact (writes_loopOver start (pair e (by simp)) (pair body (by simp))).congr
      fun level => by simp [Print.layer]
  case whileStatement c body =>
    obtain ⟨condition, inside⟩ := writes
    exact ((Writes.text "while (").seq (condition.seq ((Writes.text ") ").seq inside))).congr
      fun level => by simp [Print.layer]
  case doStatement body c =>
    obtain ⟨inside, condition⟩ := writes
    exact ((Writes.text "do ").seq (inside.seq ((Writes.text " while (").seq (condition.seq
      (.text ");"))))).congr fun level => by simp [Print.layer]
  case switchStatement e clauses =>
    obtain ⟨source, inside⟩ := writes
    have lines := (writes_statementList inside).deeper
    exact ((Writes.text "switch (").seq (source.seq ((Writes.text ") \x7b").seq
      ((Writes.text "\n").seq (lines.seq (Writes.margin.seq (.text "\x7d"))))))).congr
        fun level => by simp [Print.layer]
  case tryStatement b handler finish =>
    obtain ⟨block, handles, ends⟩ := writes
    exact ((Writes.text "try ").seq (block.seq ((writes_after handles).seq
      (writes_after ends)))).congr fun level => by simp [Print.layer]
  case catchClause binding b =>
    obtain ⟨bound, block⟩ := writes
    have head : Writes depth placeholder (binding.forM fun v => do write "("; emit v; write ") ")
        (.after "" (binding.map fun v => "(" ++ docs v ++ ") ")) := writes_option fun v present =>
      ((Writes.text "(").seq ((bound v (Option.mem_toList.mpr present)).seq (.text ") "))).congr
        fun level => by simp
    exact ((Writes.text "catch ").seq (head.seq block)).congr fun level => by simp [Print.layer]
  case throwStatement e =>
    exact ((Writes.text "throw ").seq (writes.seq (.text ";"))).congr
      fun level => by simp [Print.layer]
  case labeledStatement label s =>
    exact ((Writes.text label).seq ((Writes.text ": ").seq writes)).congr
      fun level => by simp [Print.layer]
  case functionDeclaration ms name ps body | functionExpression ms name ps body =>
    exact (writes_modifiers ms).seq (writes_function writes.1 writes.2)
  case classDeclaration ms name heritage members =>
    exact (writes_modifiers ms).seq (writes_classOf writes.1 writes.2)
  case classExpression name heritage members => exact writes_classOf writes.1 writes.2
  case moduleDeclaration ms name body =>
    exact ((writes_modifiers ms).seq ((Writes.text "namespace ").seq ((Writes.text name).seq
      ((Writes.text " ").seq writes)))).congr fun level => by simp [Print.layer]
  case methodDeclaration ms name ps body =>
    obtain ⟨named, inParameters, inside⟩ := writes
    exact ((writes_modifiers ms).seq (named.seq ((writes_parameters inParameters).seq
      ((Writes.text " ").seq inside)))).congr fun level => by simp [Print.layer]
  case propertyDeclaration ms name e =>
    exact ((writes_modifiers ms).seq (writes.1.seq ((writes_after writes.2).seq
      (.text ";")))).congr fun level => by simp [Print.layer]
  case objectLiteralExpression properties =>
    cases properties with
    | nil => exact .text _
    | cons first properties =>
      exact ((Writes.text "\x7b ").seq ((Writes.commaSeparated writes).seq (.text " \x7d"))).congr
        fun level => by simp [Print.layer]
  case propertyAssignment name e =>
    exact ((writes_propertyName writes.1).seq ((Writes.text ": ").seq writes.2)).congr
      fun level => by simp [Print.layer]
  case spreadAssignment | spreadElement => exact (Writes.text "...").seq writes
  case arrayLiteralExpression elements =>
    exact ((Writes.text "[").seq ((Writes.commaSeparated writes).seq (.text "]"))).congr
      fun level => by simp [Print.layer]
  case propertyAccessExpression e name =>
    exact (writes.seq ((Writes.text ".").seq (.text name))).congr
      fun level => by simp [Print.layer]
  case elementAccessExpression e key =>
    exact (writes.1.seq ((Writes.text "[").seq (writes.2.seq (.text "]")))).congr
      fun level => by simp [Print.layer]
  case callExpression callee args => exact writes.1.seq (writes_arguments writes.2)
  case newExpression callee args =>
    have passed : Writes depth placeholder (args.forM (arguments emit))
        (.after "" (args.map (Print.arguments docs))) := writes_option fun list present =>
      writes_arguments fun c member => writes.2 c (by cases present; exact member)
    exact ((Writes.text "new ").seq (writes.1.seq passed)).congr fun level => by simp [Print.layer]
  case binaryExpression l operator r =>
    by_cases comma : operator = ","
    · subst comma
      exact (writes.1.seq ((Writes.text ", ").seq writes.2)).congr
        fun level => by simp [Print.layer]
    · have sign : Writes depth placeholder (infixed operator) (" " ++ operator ++ " ") := by
        rw [infixed, if_neg comma]
        exact ((Writes.text " ").seq ((Writes.text operator).seq (.text " "))).congr
          fun level => by simp
      refine (writes.1.seq (sign.seq writes.2)).congr fun level => ?_
      simp [Print.layer]
  case prefixUnaryExpression operator e => exact (writes_prefixed operator).seq writes
  case booleanLiteral value => cases value <;> exact .text _
  case conditionalExpression c yes no =>
    obtain ⟨condition, one, other⟩ := writes
    exact (condition.seq ((Writes.text " ? ").seq (one.seq ((Writes.text " : ").seq other)))).congr
      fun level => by simp [Print.layer]
  case parenthesizedExpression e =>
    exact ((Writes.text "(").seq (writes.seq (.text ")"))).congr fun level => by simp [Print.layer]
  case arrowFunction ms ps body =>
    exact ((writes_modifiers ms).seq ((writes_parameters writes.1).seq ((Writes.text " => ").seq
      writes.2))).congr fun level => by simp [Print.layer]
  case annotatedExpression c e => exact (writes_comment c).seq writes
  all_goals exact .text _

end Rules

end Writes

end Printer

/-! ### Nodes -/

namespace Node

/-- How many nodes are open at once while a node is printed, itself included. Declarations in the
heads of loops are not opened, so a tree may be higher than it is nested. -/
def nesting (n : Node) : Nat := ((Print.parts n).attach.map fun c => nesting c.1).foldr max 0 + 1
termination_by n.height
decreasing_by exact Print.height_lt_of_mem_parts c.2

theorem nesting_eq (n : Node) : n.nesting = ((Print.parts n).map nesting).foldr max 0 + 1 := by
  rw [nesting, List.attach_map_val (f := nesting)]

theorem nesting_lt_of_mem_parts {n c : Node} (part : c ∈ Print.parts n) :
    c.nesting < n.nesting := by
  rw [n.nesting_eq]
  exact Nat.lt_succ_of_le (List.le_max_of_le' 0 (List.mem_map_of_mem part) (Nat.le_refl _))

/-- Room for the nodes that are open at once is enough to print a node in full. -/
theorem doc_eq_whole_of_nesting {n : Node} {room : Nat} (fits : n.nesting ≤ room) :
    n.doc room = n.whole := by
  induction room generalizing n with
  | zero =>
    rw [n.nesting_eq] at fits
    contradiction
  | succ room ih =>
    rw [n.whole_eq, doc]
    refine Print.layer_congr fun c part => ih ?_
    have lower := nesting_lt_of_mem_parts part
    omega

end Node

namespace Printer

section Opening

variable {depth : Nat} {placeholder : String} {act : Action} {d : Doc}

theorem writes_opening (room : depth < maxPrintDepth)
    (writes : Writes (depth + 1) placeholder act d) :
    Writes depth placeholder (opening act) d := by
  rintro p rfl rfl
  have inside := writes { p with depth := p.depth + 1 } rfl rfl
  have opened : (opening act).run p =
      (modify fun p => { p with depth := p.depth - 1 } : Action).run
        (act.run { p with depth := p.depth + 1 }).2 := by
    change StateT.run (if maxPrintDepth ≤ p.depth then _ else _ : Action) p = _
    rw [if_neg (Nat.not_le_of_lt room)]
    rfl
  rw [opened, inside]
  rfl

theorem writes_opening_full (full : maxPrintDepth ≤ depth) :
    Writes depth placeholder (opening act) (.text placeholder) := by
  rintro p rfl rfl
  change StateT.run (if maxPrintDepth ≤ p.depth then _ else _ : Action) p = _
  rw [if_pos full]
  rfl

end Opening

/-- A node is written as its document with the room that is left. The placeholder is the one that
documents have, or none is needed. -/
theorem writes_emitWithin {room depth : Nat} {placeholder : String} {n : Node}
    (enough : maxPrintDepth ≤ depth + room)
    (known : placeholder = start.placeholder ∨ depth + n.nesting ≤ maxPrintDepth) :
    Writes depth placeholder (emitWithin room n) (n.doc (maxPrintDepth - depth)) := by
  have replaced {depth : Nat} {n : Node} (full : maxPrintDepth ≤ depth)
      (known : placeholder = start.placeholder ∨ depth + n.nesting ≤ maxPrintDepth) :
      n.doc (maxPrintDepth - depth) = .text placeholder := by
    have positive : 0 < n.nesting := by
      rw [n.nesting_eq]
      exact Nat.succ_pos _
    rw [Nat.sub_eq_zero_of_le full, known.resolve_right (by omega)]
    rfl
  induction room generalizing depth n with
  | zero =>
    have full : maxPrintDepth ≤ depth := enough
    rw [replaced full known]
    rintro p - rfl
    rfl
  | succ room ih =>
    by_cases full : maxPrintDepth ≤ depth
    · rw [replaced full known]
      exact writes_opening_full full
    · have left : maxPrintDepth - depth = (maxPrintDepth - (depth + 1)) + 1 := by omega
      rw [left, Node.doc]
      refine writes_opening (Nat.lt_of_not_le full) (writes_layer fun c part => ?_)
      have lower := Node.nesting_lt_of_mem_parts part
      exact ih (by omega) (known.imp_right fun fits => by omega)

/-- A new printer prints the text of a tree, whatever the tree. -/
theorem output_emit_start (n : Node) : ((emit n).run start).2.output = n.text := by
  have enough : maxPrintDepth ≤ 0 + maxPrintDepth := Nat.le_add_left ..
  rw [emit, writes_emitWithin enough (.inl rfl) start rfl rfl]
  rfl

/-- A node that is not nested too deep for a printer is printed in full, whatever would stand for
a node that is. The printer has its level and its open nodes as before. -/
theorem run_emit {n : Node} {p : Printer} (fits : p.depth + n.nesting ≤ maxPrintDepth) :
    (emit n).run p = ((), p.typeset n.whole) := by
  have enough : maxPrintDepth ≤ p.depth + maxPrintDepth := Nat.le_add_left ..
  rw [emit, writes_emitWithin enough (.inr fits) p rfl rfl,
    Node.doc_eq_whole_of_nesting (Nat.le_sub_of_add_le' fits)]

end Printer
end PureEnum
