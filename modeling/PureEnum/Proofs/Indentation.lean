import PureEnum.Proofs.Writing

/-! Indentation. A document that ends its lines itself, and writes a margin at the start of each,
is set at a deeper level by putting the additional blanks behind each of its line ends. Documents of
nodes are of that kind where no line ends inside of a text, but for those of files, whose last line
is ended without a margin. So what is printed for a node depends on the place in this respect
only. -/
namespace PureEnum

def pad (levels : Nat) : List Char := List.replicate (4 * levels) ' '

/-- A text whose lines, but the first, stand deeper. -/
def indentBy (levels : Nat) (s : List Char) : List Char :=
  s.flatMap fun c => if c = '\n' then c :: pad levels else [c]

@[simp] theorem indentBy_append (levels : Nat) (s t : List Char) :
    indentBy levels (s ++ t) = indentBy levels s ++ indentBy levels t := List.flatMap_append ..

theorem indentBy_eq_self {s : List Char} (unbroken : '\n' ∉ s) (levels : Nat) :
    indentBy levels s = s := by
  induction s with
  | nil => rfl
  | cons c s ih =>
    rw [List.mem_cons, not_or] at unbroken
    rw [indentBy, List.flatMap_cons, if_neg (Ne.symm unbroken.1), ← indentBy, ih unbroken.2]
    rfl

/-! ### Texts of nodes -/

def Cell.words {ν : Type} : (c : Cell) → c.Content ν → List String
  | text, x => [x]
  | node, _ | node?, _ | flag, _ => []

def Slot.words {ν : Type} : (s : Slot) → s.Content ν → List String
  | cell c, x => c.words x
  | text?, x => x.toList
  | texts, x => x
  | comment, x => [x.text]
  | nodes, _ | nodes?, _ | modifiers, _ | keyword, _ | declarations, _ | parameters, _ => []

def Row.words {ν : Type} : {fields : List (String × Slot)} → Row (Slot.Content ν) fields →
    List String
  | [], () => []
  | field :: _, (x, rest) => field.2.words x ++ words rest

namespace Node

/-- The texts of a node itself that are printed as they stand. -/
def verbatim : Node → List String
  | stringLiteral _ => []
  | importDeclaration primary named _ => primary.toList ++ named
  | n => n.layer.row.words

/-- No line ends in a text that is printed as it stands, and no file is in the tree. -/
structure Unbroken (n : Node) : Prop where
  files : ∀ s ∈ n.subtrees, s.kind ≠ .sourceFile
  texts : ∀ s ∈ n.subtrees, ∀ t ∈ s.verbatim, '\n' ∉ t.toList

end Node

/-! ### Documents -/

namespace Doc

/-- The blanks that are owed at a place, which are none but behind a line end. -/
def owed (behind : Bool) (levels : Nat) : List Char := if behind then pad levels else []

/-- Setting a document deeper indents it. It starts behind a line end or not, and so it ends. -/
def Lined (starts ends : Bool) (d : Doc) : Prop := ∀ level levels,
  d.chars (level + levels) ++ owed ends levels =
    owed starts levels ++ indentBy levels (d.chars level)

/-- Stands in a line. Lines that a document starts itself may be behind that. -/
abbrev Inline (d : Doc) : Prop := Lined false false d

namespace Lined

variable {a b c : Bool} {x y : Doc} {ds : List Doc}

theorem text {s : String} (unbroken : '\n' ∉ s.toList) : Inline (.text s) := by
  intro level levels
  simp [owed, indentBy_eq_self unbroken]

/-- A text with one line end, which it ends with. -/
theorem ended {s : String} (ends : '\n' ∈ s.toList.getLast?)
    (unbroken : '\n' ∉ s.toList.dropLast) : Lined false true (.text s) := by
  intro level levels
  rw [chars_text, chars_text, ← List.dropLast_append_getLast? '\n' ends, indentBy_append,
    indentBy_eq_self unbroken]
  simp [owed, indentBy]

theorem margin : Lined true false margin := by
  intro level levels
  have blanks : '\n' ∉ List.replicate (4 * level) ' ' := fun member =>
    absurd (List.eq_of_mem_replicate member) (by decide)
  rw [chars_margin, chars_margin, indentBy_eq_self blanks, Nat.mul_add, Nat.add_comm,
    List.replicate_add]
  simp [owed, pad]

theorem deeper (lined : Lined a b x) : Lined a b (deeper x) := by
  intro level levels
  rw [chars_deeper, chars_deeper, Nat.add_right_comm]
  exact lined (level + 1) levels

theorem append (first : Lined a b x) (second : Lined b c y) : Lined a c (x ++ y) := by
  intro level levels
  rw [chars_append, chars_append, indentBy_append, List.append_assoc, second, ← List.append_assoc,
    first, List.append_assoc]

theorem led {s : String} (lined : Lined false b x) (unbroken : '\n' ∉ s.toList) :
    Lined false b (.text s ++ x) := (text unbroken).append lined

theorem closed {s : String} (lined : Lined a false x) (unbroken : '\n' ∉ s.toList) :
    Lined a false (x ++ .text s) := lined.append (text unbroken)

theorem empty : Lined a a empty := by
  intro level levels
  simp [indentBy]

theorem concat (lined : ∀ d ∈ ds, Lined a a d) : Lined a a (concat ds) := by
  induction ds with
  | nil => exact empty
  | cons d ds ih =>
    obtain ⟨first, others⟩ := List.forall_mem_cons.mp lined
    exact first.append (ih others)

theorem after {word : String} {part : Option Doc} (unbroken : '\n' ∉ word.toList)
    (inline : ∀ d ∈ part, Inline d) : Inline (.after word part) := by
  cases part with
  | none => exact empty
  | some d => exact (text unbroken).append (inline d rfl)

theorem commaSeparated (inline : ∀ d ∈ ds, Inline d) : Inline (.commaSeparated ds) := by
  cases ds with
  | nil => exact empty
  | cons d ds =>
    obtain ⟨first, others⟩ := List.forall_mem_cons.mp inline
    refine first.append (concat (List.forall_mem_map.mpr fun e member => ?_))
    exact (others e member).led (by decide)

end Lined
end Doc

/-! ### Nodes -/

namespace Print

open Doc

section Lines

variable {ds : List Doc}

theorem lined_lines (inline : ∀ d ∈ ds, Inline d) : Lined true true (lines ds) :=
  .concat (List.forall_mem_map.mpr fun d member =>
    (Lined.margin.append (inline d member)).append (.ended (by decide) (by decide)))

theorem inline_braced (inline : ∀ d ∈ ds, Inline d) : Inline (braced ds) := by
  rw [braced]
  split
  · exact .text (by decide)
  · have opening : Lined false true (.text "\x7b\n") := .ended (by decide) (by decide)
    exact ((opening.append (lined_lines inline).deeper).append .margin).closed (by decide)

theorem inline_clauseBody (inline : ∀ d ∈ ds, Inline d) : Inline (clauseBody ds) :=
  .deeper (.concat (List.forall_mem_map.mpr fun d member =>
    ((Lined.ended (by decide) (by decide)).append .margin).append (inline d member)))

end Lines

/-- Names and labels that are printed as they stand. -/
theorem inline_name {name : Option String} {word : String}
    (unbroken : '\n' ∉ word.toList) (names : ∀ s ∈ name.toList, '\n' ∉ s.toList) :
    Inline (.after word (name.map .text)) := by
  refine .after unbroken fun d member => ?_
  obtain ⟨s, present, rfl⟩ := Option.mem_map.mp member
  exact .text (names s (Option.mem_toList.mpr present))

theorem inline_jump {word : String} {label : Option String} (unbroken : '\n' ∉ word.toList)
    (names : ∀ s ∈ label.toList, '\n' ∉ s.toList) : Inline (jump word label) :=
  ((inline_name (by decide) names).led unbroken).closed (by decide)

theorem inline_modifiers (ms : Modifiers) : Inline (modifiers ms) := by
  refine .concat (List.forall_mem_map.mpr fun m _ => .text ?_)
  cases m <;> decide

/-- The line ends of a quoted text are escaped. -/
theorem inline_quote (s : String) : Inline (.text (Text.quote s)) := by
  have digit : ∀ k < 16, Text.hexDigit k ≠ '\n' := by decide
  have each : ∀ c, '\n' ∉ Text.escape c := by
    intro c
    unfold Text.escape
    split_ifs with quote slash line
    all_goals try decide
    · simp only [Text.hexFour, List.mem_cons, List.not_mem_nil, or_false, not_or]
      refine ⟨by decide, by decide, ?_, ?_, ?_, ?_⟩ <;>
        exact (digit _ (Nat.mod_lt _ (by decide))).symm
    · exact fun member => line (List.mem_singleton.mp member).symm
  refine .text ?_
  rw [Text.quote, String.toList_ofList, Text.quoteChars]
  simp [each]

theorem inline_comment {c : Comment} (unbroken : '\n' ∉ c.text.toList) :
    Inline (comment c) := by
  have rendered : '\n' ∉ c.render.toList := by
    rw [Comment.render]
    split <;> simp [unbroken]
  refine (Lined.text rendered).append ?_
  split
  · exact .text (by decide)
  · exact (Lined.ended (by decide) (by decide)).append .margin

theorem inline_prefixed {operator : String} (unbroken : '\n' ∉ operator.toList) :
    Inline (prefixed operator) := by
  rw [prefixed]
  split
  · exact (Lined.text unbroken).closed (by decide)
  · exact .text unbroken

theorem inline_importOf {primary : Option String} {named : List String} (specifier : String)
    (names : ∀ s ∈ primary.toList ++ named, '\n' ∉ s.toList) :
    Inline (importOf primary named specifier) := by
  obtain ⟨first, others⟩ := List.forall_mem_append.mp names
  have list : Inline (if named.isEmpty then Doc.text "" else
      "\x7b " ++ .commaSeparated (named.map .text) ++ " \x7d ") := by
    split
    · exact .text (by decide)
    · have inside : Inline (.commaSeparated (named.map .text)) :=
        .commaSeparated (List.forall_mem_map.mpr fun s member => .text (others s member))
      exact (inside.led (by decide)).closed (by decide)
  cases primary with
  | none =>
    have before : Inline (if named.isEmpty then Doc.text "" else
        (if named.isEmpty then Doc.text "" else
          "\x7b " ++ .commaSeparated (named.map .text) ++ " \x7d ") ++ "from ") := by
      cases named with
      | nil => exact .text (by decide)
      | cons => exact list.closed (by decide)
    exact ((before.led (by decide)).append (inline_quote specifier)).closed (by decide)
  | some name =>
    have comma : Inline (.text (if named.isEmpty then " " else ", ")) := by
      split <;> exact .text (by decide)
    have named := Lined.text (first name List.mem_cons_self)
    exact (((((named.append comma).append list).closed (by decide)).led (by decide)).append
      (inline_quote specifier)).closed (by decide)

section Parts

variable {emit : Node → Doc}

theorem inline_after {word : String} {part : Option Node} (unbroken : '\n' ∉ word.toList)
    (inline : ∀ c ∈ part.toList, Inline (emit c)) : Inline (.after word (part.map emit)) := by
  refine .after unbroken fun d member => ?_
  obtain ⟨c, present, rfl⟩ := Option.mem_map.mp member
  exact inline c (Option.mem_toList.mpr present)

theorem inline_list {nodes : List Node} (inline : ∀ c ∈ nodes, Inline (emit c)) :
    Inline (.commaSeparated (nodes.map emit)) :=
  .commaSeparated (List.forall_mem_map.mpr inline)

theorem inline_declarationList (keyword : Keyword) {ds : List (Declaration Node)}
    (inline : ∀ c ∈ ds.flatMap Declaration.children, Inline (emit c)) :
    Inline (declarationList emit keyword ds) := by
  have word : Inline (.text (keyword.text ++ " ")) := by
    cases keyword <;> exact .text (by decide)
  refine word.append (.commaSeparated (List.forall_mem_map.mpr fun d member => ?_))
  have inside := fun c child => inline c (List.mem_flatMap.mpr ⟨d, member, child⟩)
  exact (inside d.name List.mem_cons_self).append
    (inline_after (by decide) fun c child => inside c (List.mem_cons_of_mem _ child))

theorem inline_loopHead {i : Node} (inline : ∀ c ∈ headParts i, Inline (emit c)) :
    Inline (loopHead emit i) := by
  cases i with
  | variableStatement _ keyword ds => exact inline_declarationList keyword inline
  | _ => exact inline _ List.mem_cons_self

theorem inline_parameters {ps : List (Parameter Node)}
    (inline : ∀ c ∈ ps.flatMap Parameter.children, Inline (emit c)) :
    Inline (parameters emit ps) := by
  have list : Inline (.commaSeparated (ps.map fun p =>
      (if p.rest then "..." else "" : String) ++ emit p.name ++
        .after " = " (p.initializer.map emit))) := by
    refine .commaSeparated (List.forall_mem_map.mpr fun p member => ?_)
    have inside := fun c child => inline c (List.mem_flatMap.mpr ⟨p, member, child⟩)
    have dots : Inline (.text (if p.rest then "..." else "")) := by
      cases p.rest <;> exact .text (by decide)
    exact (dots.append (inside p.name List.mem_cons_self)).append
      (inline_after (by decide) fun c child => inside c (List.mem_cons_of_mem _ child))
  exact (list.led (by decide)).closed (by decide)

theorem inline_function {name : Option String} {ps : List (Parameter Node)} {body : Node}
    (names : ∀ s ∈ name.toList, '\n' ∉ s.toList)
    (inside : ∀ c ∈ ps.flatMap Parameter.children, Inline (emit c)) (inline : Inline (emit body)) :
    Inline (function emit name ps body) := by
  have named : Inline ("function " ++ .after "" (name.map .text)) :=
    (inline_name (by decide) names).led (by decide)
  exact ((named.append (inline_parameters inside)).closed (by decide)).append inline

theorem inline_classOf {name : Option String} {heritage : Option Node} {members : List Node}
    (names : ∀ s ∈ name.toList, '\n' ∉ s.toList)
    (base : ∀ c ∈ heritage.toList, Inline (emit c)) (inline : ∀ c ∈ members, Inline (emit c)) :
    Inline (classOf emit name heritage members) := by
  have named : Inline ("class" ++ .after " " (name.map .text)) :=
    (inline_name (by decide) names).led (by decide)
  exact ((named.append (inline_after (by decide) base)).closed (by decide)).append
    (inline_braced (List.forall_mem_map.mpr inline))

theorem inline_arguments {arguments : List Node} (inline : ∀ c ∈ arguments, Inline (emit c)) :
    Inline (Print.arguments emit arguments) :=
  ((inline_list inline).led (by decide)).closed (by decide)

theorem inline_propertyName {n : Node} (inline : Inline (emit n)) :
    Inline (propertyName emit n) := by
  cases n with
  | identifier | stringLiteral | numericLiteral => exact inline
  | _ => exact (inline.led (by decide)).closed (by decide)

theorem inline_scope {head : ScopeHead Node} {statements : List Node}
    (other : head.kind ≠ .sourceFile)
    (inline : ∀ c ∈ (Node.scope head statements).children, Inline (emit c)) :
    Inline (scope emit head statements) := by
  rw [Node.children_scope, List.forall_mem_append] at inline
  have inside := List.forall_mem_map.mpr inline.2
  cases head with
  | file => exact absurd rfl other
  | block | moduleBlock => exact inline_braced inside
  | caseOf test =>
    exact (((inline.1 test List.mem_cons_self).led (by decide)).closed (by decide)).append
      (inline_clauseBody inside)
  | defaultCase => exact (inline_clauseBody inside).led (by decide)

/-- A node is put together from its parts in its line, and in lines that it starts itself. -/
theorem inline_layer {n : Node} (other : n.kind ≠ .sourceFile)
    (texts : ∀ s ∈ n.verbatim, '\n' ∉ s.toList) (inline : ∀ c ∈ parts n, Inline (emit c)) :
    Inline (layer emit n) := by
  cases n
  case scope => exact inline_scope other inline
  case stringLiteral s => exact inline_quote s
  case importDeclaration primary named specifier => exact inline_importOf specifier texts
  all_goals
    simp only [parts, Node.children, Node.layer, Layer.children, Row.children, Slot.children,
      Cell.children, List.append_nil, List.nil_append, List.forall_mem_append,
      List.forall_mem_singleton] at inline
    simp only [Node.verbatim, Node.layer, Row.words, Slot.words, Cell.words, List.append_nil,
      List.nil_append, List.forall_mem_singleton] at texts
  case variableStatement ms keyword ds =>
    exact ((inline_modifiers ms).append (inline_declarationList keyword inline)).closed (by decide)
  case expressionStatement => exact inline.closed (by decide)
  case returnStatement =>
    exact ((inline_after (by decide) inline).led (by decide)).closed (by decide)
  case ifStatement =>
    obtain ⟨condition, chosen, other⟩ := inline
    exact (((condition.led (by decide)).closed (by decide)).append chosen).append
      (inline_after (by decide) other)
  case forStatement i c s body =>
    obtain ⟨start, condition, step, inside⟩ := inline
    have head : Inline (.after "" (i.map (loopHead emit))) :=
      inline_after (by decide) fun n present => inline_loopHead fun c member =>
        start c (List.mem_flatMap.mpr ⟨n, present, member⟩)
    have begun : Inline ("for (" ++ .after "" (i.map (loopHead emit)) ++ ";") :=
      (head.led (by decide)).closed (by decide)
    have tested : Inline ("for (" ++ .after "" (i.map (loopHead emit)) ++ ";" ++
        .after " " (c.map emit) ++ ";") :=
      (begun.append (inline_after (by decide) condition)).closed (by decide)
    exact ((tested.append (inline_after (by decide) step)).closed (by decide)).append inside
  case forInStatement i e body | forOfStatement i e body =>
    obtain ⟨start, pair⟩ := inline
    exact (((((inline_loopHead start).led (by decide)).closed (by decide)).append
      (pair e (by simp))).closed (by decide)).append (pair body (by simp))
  case whileStatement => exact ((inline.1.led (by decide)).closed (by decide)).append inline.2
  case doStatement =>
    exact (((inline.1.led (by decide)).closed (by decide)).append inline.2).closed (by decide)
  case switchStatement e clauses =>
    have inside := lined_lines (List.forall_mem_map.mpr inline.2)
    have head : Lined false true ("switch (" ++ emit e ++ ") \x7b\n") :=
      (inline.1.led (by decide)).append (.ended (by decide) (by decide))
    exact ((head.append inside.deeper).append .margin).closed (by decide)
  case tryStatement =>
    obtain ⟨block, handles, ends⟩ := inline
    exact ((block.led (by decide)).append (inline_after (by decide) handles)).append
      (inline_after (by decide) ends)
  case catchClause binding b =>
    have head : Inline (.after "" (binding.map fun v => "(" ++ emit v ++ ") ")) :=
      inline_after (by decide) fun v present =>
        ((inline.1 v present).led (by decide)).closed (by decide)
    exact (head.led (by decide)).append inline.2
  case throwStatement => exact (inline.led (by decide)).closed (by decide)
  case labeledStatement => exact ((Lined.text texts).closed (by decide)).append inline
  case breakStatement | continueStatement => exact inline_jump (by decide) texts
  case functionDeclaration ms name ps body | functionExpression ms name ps body =>
    exact (inline_modifiers ms).append (inline_function texts inline.1 inline.2)
  case classDeclaration ms name heritage members =>
    exact (inline_modifiers ms).append (inline_classOf texts inline.1 inline.2)
  case classExpression => exact inline_classOf texts inline.1 inline.2
  case moduleDeclaration ms name body =>
    exact ((((inline_modifiers ms).closed (by decide)).closed texts).closed (by decide)).append
      inline
  case methodDeclaration ms name ps body =>
    obtain ⟨named, inParameters, inside⟩ := inline
    have head := ((inline_modifiers ms).append named).append (inline_parameters inParameters)
    exact (head.closed (by decide)).append inside
  case propertyDeclaration ms name e =>
    exact (((inline_modifiers ms).append inline.1).append
      (inline_after (by decide) inline.2)).closed (by decide)
  case identifier | numericLiteral | shorthandPropertyAssignment | raw => exact .text texts
  case booleanLiteral value => cases value <;> exact .text (by decide)
  case objectLiteralExpression properties =>
    rw [layer]
    split
    · exact .text (by decide)
    · exact ((inline_list inline).led (by decide)).closed (by decide)
  case propertyAssignment =>
    exact ((inline_propertyName inline.1).closed (by decide)).append inline.2
  case spreadAssignment | spreadElement => exact inline.led (by decide)
  case arrayLiteralExpression => exact ((inline_list inline).led (by decide)).closed (by decide)
  case propertyAccessExpression => exact (inline.closed (by decide)).closed texts
  case elementAccessExpression =>
    exact ((inline.1.closed (by decide)).append inline.2).closed (by decide)
  case callExpression => exact inline.1.append (inline_arguments inline.2)
  case newExpression callee args =>
    have passed : Inline (.after "" (args.map (arguments emit))) := by
      refine .after (by decide) fun d member => ?_
      obtain ⟨list, present, rfl⟩ := Option.mem_map.mp member
      exact inline_arguments fun c child => inline.2 c (by cases present; exact child)
    exact (inline.1.led (by decide)).append passed
  case binaryExpression l operator r =>
    by_cases comma : operator = ","
    · subst comma
      exact (inline.1.closed (by decide)).append inline.2
    · have sign : Inline (emit l ++ " " ++ operator ++ " " ++ emit r) :=
        (((inline.1.closed (by decide)).closed texts).closed (by decide)).append inline.2
      simpa only [layer] using sign
  case prefixUnaryExpression => exact (inline_prefixed texts).append inline
  case postfixUnaryExpression => exact inline.closed texts
  case conditionalExpression =>
    obtain ⟨condition, one, other⟩ := inline
    exact (((condition.closed (by decide)).append one).closed (by decide)).append other
  case parenthesizedExpression => exact (inline.led (by decide)).closed (by decide)
  case arrowFunction ms ps body =>
    exact (((inline_modifiers ms).append (inline_parameters inline.1)).closed (by decide)).append
      inline.2
  case annotatedExpression => exact (inline_comment texts).append inline
  all_goals exact .text (by decide)

end Parts

end Print

namespace Node

theorem Unbroken.subtree {n s : Node} (unbroken : n.Unbroken) (member : s ∈ n.subtrees) :
    s.Unbroken where
  files t below := unbroken.files t (mem_subtrees_trans member below)
  texts t below := unbroken.texts t (mem_subtrees_trans member below)

theorem mem_subtrees_of_mem_parts {n c : Node} (part : c ∈ Print.parts n) : c ∈ n.subtrees := by
  rcases Print.child_of_mem_parts part with child | ⟨i, child, inside⟩
  · exact child_mem_subtrees child
  · exact mem_subtrees_of_child child (child_mem_subtrees inside)

/-- Wherever it stands, an unbroken node is a document of lines that it indents itself. -/
theorem Unbroken.inline_whole {n : Node} (unbroken : n.Unbroken) : Doc.Inline n.whole := by
  induction height : n.height using Nat.strong_induction_on generalizing n with
  | h height ih =>
    subst height
    have self := n.self_mem_subtrees
    rw [n.whole_eq]
    refine Print.inline_layer (unbroken.files n self) (unbroken.texts n self) fun c part => ?_
    exact ih c.height (Print.height_lt_of_mem_parts part)
      (unbroken.subtree (mem_subtrees_of_mem_parts part)) rfl

theorem Unbroken.chars_whole {n : Node} (unbroken : n.Unbroken) (level : Nat) :
    n.whole.chars level = indentBy level (n.whole.chars 0) := by
  simpa [Doc.owed] using unbroken.inline_whole 0 level

end Node

namespace Printer

/-- What is printed for a node depends on the place in its indentation only. Behind what is
written, under any number of open nodes that leave room for it, a printer at a level writes the text
that a new printer writes for the node, with the blanks of that level behind each line end. What the
printer would write for a node that is too deep is never written, and its level and its open nodes
are as before. -/
theorem emit_anywhere {n : Node} (unbroken : n.Unbroken) {p : Printer}
    (fits : p.depth + n.nesting ≤ maxPrintDepth) :
    ((emit n).run start).2.output = n.text ∧
    (emit n).run p =
      ((), { p with output := p.output ++ String.ofList (indentBy p.level n.text.toList) }) := by
  refine ⟨output_emit_start n, ?_⟩
  have alone : n.text.toList = n.whole.chars 0 := by
    rw [Node.text, Node.doc_eq_whole_of_nesting (Nat.le_trans (Nat.le_add_left ..) fits)]
    rfl
  rw [run_emit fits, typeset, Doc.writeAt_eq, alone, ← unbroken.chars_whole, Doc.chars,
    String.ofList_toList]

def branching : Node := .block [.breakStatement none,
  .expressionStatement (.annotatedExpression ⟨"!", false⟩ (.stringLiteral "\n"))]

theorem nesting_branching : branching.nesting = 4 := by
  simp [branching, Node.block, Node.nesting_eq, Print.parts, Node.children, Node.layer,
    Layer.children, Row.children, Slot.children, Cell.children]

theorem unbroken_branching : branching.Unbroken := by
  constructor <;>
  simp [branching, Node.subtrees_eq, Node.children, Node.layer, Layer.children, Row.children,
    Slot.children, Cell.children, Node.kind, ScopeHead.kind, Node.block, Node.verbatim, Row.words,
    Slot.words, Cell.words]

/-- There is just enough room. -/
theorem emit_branching : (emit branching).run ⟨"do ", 1, 996, "?"⟩ = ((), ⟨
    "do \x7b\n        break;\n        //!\n        \x22\\n\x22;\n    \x7d", 1, 996, "?"⟩) := by
  have fits : 996 + branching.nesting ≤ maxPrintDepth := by
    simp [nesting_branching, maxPrintDepth]
  have text : branching.text.toList =
      "\x7b\n    break;\n    //!\n    \x22\\n\x22;\n\x7d".toList := rfl
  rw [(emit_anywhere (p := ⟨_, 1, 996, "?"⟩) unbroken_branching fits).2, text]
  rfl

end Printer
end PureEnum
