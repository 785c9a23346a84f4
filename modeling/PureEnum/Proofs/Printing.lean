import PureEnum.Print.Node
import PureEnum.Proofs.Subtrees

/-! Printed text. A document is read as its characters at a level; of these the level decides
nothing but blanks. Every node that stands in a tree is printed with the tree, as long as the tree
is not too high, and the room left for it makes no difference then. -/
namespace PureEnum

namespace Doc

def chars (level : Nat) (d : Doc) : List Char := (d.writeAt level "").toList

section Chars

variable (level : Nat)

@[simp] theorem chars_text (s : String) : (text s).chars level = s.toList := by
  simp [chars, writeAt]

@[simp] theorem chars_margin : margin.chars level = List.replicate (4 * level) ' ' := by
  have blanks : (indentation level).toList = List.replicate (4 * level) ' ' := by
    induction level with
    | zero => rfl
    | succ level ih =>
      rw [indentation, String.toList_append, ih, Nat.mul_succ, List.replicate_add]
      rfl
  simpa [chars, writeAt] using blanks

@[simp] theorem chars_deeper (d : Doc) : (deeper d).chars level = d.chars (level + 1) := rfl

@[simp] theorem chars_append (a b : Doc) :
    (a ++ b).chars level = a.chars level ++ b.chars level := by
  rw [chars, writeAt_append, String.toList_append, chars, chars]

@[simp] theorem chars_empty : empty.chars level = [] := chars_text level ""

@[simp] theorem chars_line : line.chars level = '\n' :: List.replicate (4 * level) ' ' := by
  rw [line, chars_append, chars_text, chars_margin]
  rfl

@[simp] theorem chars_concat (ds : List Doc) :
    (concat ds).chars level = ds.flatMap (chars level) := by
  induction ds with
  | nil => exact chars_empty level
  | cons d ds ih =>
    rw [List.flatMap_cons, ← ih]
    exact chars_append level d (concat ds)

end Chars

/-- The level decides nothing but how many blanks there are. -/
theorem mem_chars {c : Char} {d : Doc} {level : Nat} (member : c ∈ d.chars level) (other : Nat) :
    c ∈ d.chars other ∨ c = ' ' := by
  induction d generalizing level other with
  | text s => exact .inl (by simpa using member)
  | margin =>
    rw [chars_margin] at member
    exact .inr (List.eq_of_mem_replicate member)
  | deeper d ih => exact ih member (other + 1)
  | append a b iha ihb =>
    have split := fun l => chars_append l a b
    change c ∈ (a ++ b).chars level at member
    change c ∈ (a ++ b).chars other ∨ _
    rw [split, List.mem_append] at member ⊢
    rcases member with inside | inside
    · exact (iha inside other).imp_left .inl
    · exact (ihb inside other).imp_left .inr

inductive Part (d : Doc) : Doc → Prop where
  | self : Part d d
  | left : Part d a → Part d (append a b)
  | right : Part d b → Part d (append a b)
  | deeper : Part d a → Part d (deeper a)

namespace Part

variable {d e : Doc} {ds : List Doc}

/-- The characters of a part stand in those of the whole, set at a level of their own. -/
theorem chars (part : Part d e) (level : Nat) :
    ∃ inner before behind, e.chars level = before ++ (d.chars inner ++ behind) := by
  induction part generalizing level with
  | self => exact ⟨level, [], [], by simp⟩
  | @left a b _ ih =>
    obtain ⟨inner, before, behind, split⟩ := ih level
    refine ⟨inner, before, behind ++ b.chars level, ?_⟩
    change (a ++ b).chars level = _
    simp [split]
  | @right b a _ ih =>
    obtain ⟨inner, before, behind, split⟩ := ih level
    refine ⟨inner, a.chars level ++ before, behind, ?_⟩
    change (a ++ b).chars level = _
    simp [split]
  | deeper _ ih => exact ih (level + 1)

theorem trans {c : Doc} (first : Part c d) (second : Part d e) : Part c e := by
  induction second with
  | self => exact first
  | left _ ih => exact .left ih
  | right _ ih => exact .right ih
  | deeper _ ih => exact .deeper ih

theorem append_iff {a b : Doc} : Part d (a ++ b) ↔ d = a ++ b ∨ Part d a ∨ Part d b := by
  constructor
  · intro part
    cases part with
    | self => exact .inl rfl
    | left part => exact .inr (.inl part)
    | right part => exact .inr (.inr part)
  · rintro (rfl | part | part)
    · exact .self
    · exact .left part
    · exact .right part

theorem concat (member : e ∈ ds) (part : Part d e) : Part d (concat ds) := by
  induction ds with
  | nil => exact absurd member List.not_mem_nil
  | cons f ds ih =>
    rcases List.mem_cons.mp member with rfl | member
    · exact .left part
    · exact .right (ih member)

theorem commaSeparated (member : e ∈ ds) (part : Part d e) : Part d (commaSeparated ds) := by
  cases ds with
  | nil => exact absurd member List.not_mem_nil
  | cons f ds =>
    rcases List.mem_cons.mp member with rfl | member
    · exact .left part
    · exact .right (.concat (List.mem_map_of_mem member) (.right part))

theorem after {word : String} {o : Option Doc} (member : e ∈ o) (part : Part d e) :
    Part d (after word o) := by
  cases o with
  | none => contradiction
  | some f =>
    obtain rfl := Option.some.inj member
    exact .right part

end Part

end Doc

namespace Print

open Doc

variable (emit : Node → Doc)

section Parts

variable {c : Node}

theorem part_lines {nodes : List Node} (member : c ∈ nodes) :
    Part (emit c) (lines (nodes.map emit)) := by
  refine .concat (List.mem_map_of_mem (List.mem_map_of_mem member)) ?_
  simp [Part.append_iff, Part.self]

theorem part_braced {nodes : List Node} (member : c ∈ nodes) :
    Part (emit c) (braced (nodes.map emit)) := by
  have lines := part_lines emit member
  rw [braced, if_neg (by simpa using List.ne_nil_of_mem member)]
  simp [Part.append_iff, Part.deeper lines]

theorem part_clauseBody {nodes : List Node} (member : c ∈ nodes) :
    Part (emit c) (clauseBody (nodes.map emit)) := by
  refine .deeper (.concat (List.mem_map_of_mem (List.mem_map_of_mem member)) ?_)
  simp [Part.append_iff, Part.self]

theorem part_after {word : String} {o : Option Node} (member : c ∈ o.toList) :
    Part (emit c) (.after word (o.map emit)) := by
  obtain rfl : o = some c := by simpa using member
  exact .after rfl .self

theorem part_commaSeparated {nodes : List Node} (member : c ∈ nodes) :
    Part (emit c) (.commaSeparated (nodes.map emit)) :=
  .commaSeparated (List.mem_map_of_mem member) .self

theorem part_declarationList (keyword : Keyword) {ds : List (Declaration Node)}
    (member : c ∈ ds.flatMap Declaration.children) :
    Part (emit c) (declarationList emit keyword ds) := by
  obtain ⟨d, inside, child⟩ := List.mem_flatMap.mp member
  have each : Part (emit c) (emit d.name ++ .after " = " (d.initializer.map emit)) := by
    rcases List.mem_cons.mp child with rfl | child
    · simp [Part.append_iff, Part.self]
    · simp [Part.append_iff, part_after emit child]
  exact .right (.commaSeparated (List.mem_map_of_mem inside) each)

theorem part_parameters {ps : List (Parameter Node)}
    (member : c ∈ ps.flatMap Parameter.children) : Part (emit c) (parameters emit ps) := by
  obtain ⟨p, inside, child⟩ := List.mem_flatMap.mp member
  have each : Part (emit c) ((if p.rest then "..." else "" : String) ++ emit p.name ++
      .after " = " (p.initializer.map emit)) := by
    rcases List.mem_cons.mp child with rfl | child
    · simp [Part.append_iff, Part.self]
    · simp [Part.append_iff, part_after emit child]
  exact .left (.right (.commaSeparated (List.mem_map_of_mem inside) each))

theorem part_function (name : Option String) {ps : List (Parameter Node)} {body : Node}
    (member : c ∈ ps.flatMap Parameter.children ∨ c = body) :
    Part (emit c) (function emit name ps body) := by
  rcases member with member | rfl
  · simp [function, Part.append_iff, part_parameters emit member]
  · simp [function, Part.append_iff, Part.self]

theorem part_classOf (name : Option String) {heritage : Option Node} {members : List Node}
    (member : c ∈ heritage.toList ∨ c ∈ members) :
    Part (emit c) (classOf emit name heritage members) := by
  rcases member with member | member
  · simp [classOf, Part.append_iff, part_after emit member]
  · simp [classOf, Part.append_iff, part_braced emit member]

theorem part_arguments {arguments : List Node} (member : c ∈ arguments) :
    Part (emit c) (Print.arguments emit arguments) := by
  simp [Print.arguments, Part.append_iff, part_commaSeparated emit member]

theorem part_propertyName : Part (emit c) (propertyName emit c) := by
  cases c with
  | identifier | stringLiteral | numericLiteral => exact .self
  | _ => simp [propertyName, Part.append_iff, Part.self]

theorem part_scope {head : ScopeHead Node} {statements : List Node}
    (member : c ∈ (Node.scope head statements).children) :
    Part (emit c) (scope emit head statements) := by
  rw [Node.children_scope, List.mem_append] at member
  cases head with
  | caseOf test =>
    rcases member with member | member
    · obtain rfl := List.mem_singleton.mp member
      simp [scope, Part.append_iff, Part.self]
    · simp [scope, Part.append_iff, part_clauseBody emit member]
  | file =>
    exact part_lines emit (member.resolve_left List.not_mem_nil)
  | block | moduleBlock =>
    exact part_braced emit (member.resolve_left List.not_mem_nil)
  | defaultCase =>
    exact .right (part_clauseBody emit (member.resolve_left List.not_mem_nil))

/-- The nodes that the head of a loop is printed from. A declaration is not printed as such there,
but its parts are. -/
def headParts : Node → List Node
  | .variableStatement _ _ ds => ds.flatMap Declaration.children
  | n => [n]

def parts : Node → List Node
  | .forStatement i c s body => i.toList.flatMap headParts ++ (c.toList ++ (s.toList ++ [body]))
  | .forInStatement i e body | .forOfStatement i e body => headParts i ++ [e, body]
  | n => n.children

theorem part_loopHead {i : Node} (member : c ∈ headParts i) :
    Part (emit c) (loopHead emit i) := by
  cases i with
  | variableStatement _ keyword => exact part_declarationList emit keyword member
  | _ =>
    obtain rfl := List.mem_singleton.mp member
    exact .self

theorem part_loopStart {i : Option Node} (member : c ∈ i.toList.flatMap headParts) :
    Part (emit c) (.after "" (i.map (loopHead emit))) := by
  obtain ⟨start, only, inside⟩ := List.mem_flatMap.mp member
  exact (part_loopHead emit inside).trans (part_after (loopHead emit) only)

/-- A node is printed from its parts. -/
theorem part_layer {n : Node} (member : c ∈ parts n) : Part (emit c) (layer emit n) := by
  cases n with
  | scope head statements => exact part_scope emit member
  | newExpression callee arguments =>
    rcases List.mem_cons.mp member with rfl | member
    · simp [layer, Part.append_iff, Part.self]
    · cases arguments with
      | none => contradiction
      | some passed =>
        have inside := part_arguments emit (by simpa [Row.children, Slot.children] using member)
        simp [layer, Part.append_iff, Doc.after, inside]
  | catchClause binding block =>
    rcases List.mem_append.mp member with bound | member
    · have inside : Part ("(" ++ emit c ++ ") ")
          (.after "" (binding.map fun v => "(" ++ emit v ++ ") ")) :=
        part_after (fun v => "(" ++ emit v ++ ") ") bound
      have binding : Part (emit c) ("(" ++ emit c ++ ") ") := by simp [Part.append_iff, Part.self]
      simp [layer, Part.append_iff, binding.trans inside]
    · obtain rfl := List.mem_singleton.mp member
      simp [layer, Part.append_iff, Part.self]
  | _ =>
    -- a leaf has no parts; any other kind is put together from the blocks above
    simp only [parts, Node.children, Node.layer, Layer.children, Row.children, Slot.children,
      Cell.children, List.append_nil, List.nil_append, List.mem_append, List.mem_singleton,
      List.not_mem_nil] at member <;>
    simp only [layer, Part.append_iff] <;>
    grind [Part.self, Part.deeper, part_after, part_loopHead, part_loopStart, part_declarationList,
      part_lines, part_function, part_classOf, part_parameters, part_commaSeparated,
      part_arguments, part_propertyName, Part.append_iff]

end Parts

section Agree

variable {emit} {emit' : Node → Doc}

theorem agree_option {o : Option Node} :
    (∀ c ∈ o.toList, emit c = emit' c) ↔ o.map emit = o.map emit' := by
  cases o <;> simp

theorem declarationList_congr {keyword : Keyword} {ds : List (Declaration Node)}
    (agree : ∀ c ∈ ds.flatMap Declaration.children, emit c = emit' c) :
    declarationList emit keyword ds = declarationList emit' keyword ds := by
  refine congrArg (fun docs => Doc.append _ (.commaSeparated docs)) (List.map_congr_left ?_)
  intro d inside
  have each := fun c member => agree c (List.mem_flatMap.mpr ⟨d, inside, member⟩)
  rw [each d.name List.mem_cons_self,
    agree_option.mp fun c member => each c (List.mem_cons_of_mem _ member)]

theorem parameters_congr {ps : List (Parameter Node)}
    (agree : ∀ c ∈ ps.flatMap Parameter.children, emit c = emit' c) :
    parameters emit ps = parameters emit' ps := by
  have same : (ps.map fun p => (if p.rest then "..." else "" : String) ++ emit p.name ++
      Doc.after " = " (p.initializer.map emit)) = ps.map fun p =>
        (if p.rest then "..." else "" : String) ++ emit' p.name ++
          Doc.after " = " (p.initializer.map emit') := by
    refine List.map_congr_left fun p inside => ?_
    have each := fun c member => agree c (List.mem_flatMap.mpr ⟨p, inside, member⟩)
    rw [each p.name List.mem_cons_self,
      agree_option.mp fun c member => each c (List.mem_cons_of_mem _ member)]
  rw [parameters, same, parameters]

theorem loopHead_congr {i : Node} (agree : ∀ c ∈ headParts i, emit c = emit' c) :
    loopHead emit i = loopHead emit' i := by
  cases i with
  | variableStatement => exact declarationList_congr agree
  | _ => exact agree _ List.mem_cons_self

theorem propertyName_congr {n : Node} (agree : emit n = emit' n) :
    propertyName emit n = propertyName emit' n := by
  cases n <;> simp only [propertyName, agree]

theorem scope_congr {head : ScopeHead Node} {statements : List Node}
    (agree : ∀ c ∈ (Node.scope head statements).children, emit c = emit' c) :
    scope emit head statements = scope emit' head statements := by
  rw [Node.children_scope, List.forall_mem_append] at agree
  have statements := List.map_congr_left agree.2
  cases head with
  | caseOf test => rw [scope, scope, statements, agree.1 test List.mem_cons_self]
  | _ => rw [scope, scope, statements]

/-- How a node is printed depends on its parts only. -/
theorem layer_congr {n : Node} (agree : ∀ c ∈ parts n, emit c = emit' c) :
    layer emit n = layer emit' n := by
  cases n with
  | scope head statements => exact scope_congr agree
  | newExpression callee arguments =>
    obtain ⟨called, passed⟩ := List.forall_mem_cons.mp agree
    cases arguments with
    | none => simp only [layer, called, Option.map_none]
    | some arguments =>
      have same := List.map_congr_left (l := arguments) (by
        simpa [Row.children, Slot.children] using passed)
      simp only [layer, called, Option.map_some, Print.arguments, same]
  | _ =>
    simp only [parts, Node.children, Node.layer, Layer.children, Row.children, Slot.children,
      Cell.children, List.append_nil, List.nil_append, List.forall_mem_append,
      List.forall_mem_singleton] at agree
    simp only [layer, function, classOf, Print.arguments] <;>
    grind [agree_option, List.map_inj_left, declarationList_congr, parameters_congr,
      loopHead_congr, propertyName_congr]

end Agree

/-- The head of a loop is printed as such, or it is a declaration and its children are. -/
theorem headParts_cases (i : Node) :
    headParts i = [i] ∨ i.kind = .variableStatement ∧ headParts i = i.children := by
  cases i with
  | variableStatement => exact .inr ⟨rfl, by simp [headParts, Node.children, Node.layer,
      Layer.children, Row.children, Slot.children]⟩
  | _ => exact .inl rfl

/-- The children and the parts of a node differ in the head of a loop at most. -/
theorem parts_eq (n : Node) : ∃ starts others, n.children = starts ++ others ∧
    parts n = starts.flatMap headParts ++ others := by
  cases n with
  | forStatement start condition step body => exact ⟨start.toList, _, rfl, rfl⟩
  | forInStatement start e body | forOfStatement start e body =>
    exact ⟨[start], [e, body], rfl, congrArg (· ++ _) (List.flatMap_singleton ..).symm⟩
  | _ => exact ⟨[], _, rfl, rfl⟩

theorem child_of_mem_parts {n c : Node} (part : c ∈ parts n) :
    c ∈ n.children ∨ ∃ i ∈ n.children, c ∈ i.children := by
  obtain ⟨starts, others, children, parts⟩ := parts_eq n
  rw [parts, List.mem_append] at part
  rw [children]
  rcases part with inHead | other
  · obtain ⟨i, start, inside⟩ := List.mem_flatMap.mp inHead
    rcases headParts_cases i with same | ⟨-, same⟩ <;> rw [same] at inside
    · obtain rfl := List.mem_singleton.mp inside
      exact .inl (List.mem_append_left _ start)
    · exact .inr ⟨i, List.mem_append_left _ start, inside⟩
  · exact .inl (List.mem_append_right _ other)

theorem mem_parts_of_child {n c : Node} (child : c ∈ n.children) :
    c ∈ parts n ∨ c.kind = .variableStatement ∧ ∀ g ∈ c.children, g ∈ parts n := by
  obtain ⟨starts, others, children, parts⟩ := parts_eq n
  rw [children, List.mem_append] at child
  rw [parts]
  rcases child with start | other
  · rcases headParts_cases c with same | ⟨declares, same⟩
    · exact .inl (List.mem_append_left _ (List.mem_flatMap.mpr ⟨c, start, by simp [same]⟩))
    · exact .inr ⟨declares, fun g inside =>
        List.mem_append_left _ (List.mem_flatMap.mpr ⟨c, start, same ▸ inside⟩)⟩
  · exact .inl (List.mem_append_right _ other)

theorem height_lt_of_mem_parts {n c : Node} (part : c ∈ parts n) : c.height < n.height := by
  rcases child_of_mem_parts part with child | ⟨i, child, inside⟩
  · exact Node.height_lt_of_mem_children child
  · exact Nat.lt_trans (Node.height_lt_of_mem_children inside)
      (Node.height_lt_of_mem_children child)

/-- Whatever stands in a node is the node, or stands in a part of it, or is a declaration in the
head of a loop. -/
theorem mem_subtrees_parts {n s : Node} (member : s ∈ n.subtrees) :
    s = n ∨ (∃ c ∈ parts n, s ∈ c.subtrees) ∨ s.kind = .variableStatement := by
  rcases Node.mem_subtrees.mp member with rfl | ⟨c, child, below⟩
  · exact .inl rfl
  rcases mem_parts_of_child child with part | ⟨declares, inside⟩
  · exact .inr (.inl ⟨c, part, below⟩)
  rcases Node.mem_subtrees.mp below with rfl | ⟨g, grandchild, below⟩
  · exact .inr (.inr declares)
  · exact .inr (.inl ⟨g, inside g grandchild, below⟩)

end Print

namespace Node

def whole (n : Node) : Doc := n.doc n.height

theorem doc_eq_doc {n : Node} {room other : Nat} (fits : n.height ≤ room)
    (fits' : n.height ≤ other) : n.doc room = n.doc other := by
  induction room generalizing n other with
  | zero => exact absurd n.height_pos (Nat.not_lt_of_le fits)
  | succ room ih =>
    cases other with
    | zero => exact absurd n.height_pos (Nat.not_lt_of_le fits')
    | succ other =>
      refine Print.layer_congr fun c part => ?_
      have lower := Print.height_lt_of_mem_parts part
      exact ih (by omega) (by omega)

/-- More room makes no difference. -/
theorem doc_eq_whole {n : Node} {room : Nat} (fits : n.height ≤ room) : n.doc room = n.whole :=
  doc_eq_doc fits (Nat.le_refl _)

theorem toList_text {n : Node} (fits : n.height ≤ maxPrintDepth) :
    n.text.toList = n.whole.chars 0 := by
  rw [text, doc_eq_whole fits]
  rfl

theorem whole_eq (n : Node) : n.whole = Print.layer whole n := by
  obtain ⟨below, height⟩ : ∃ below, n.height = below + 1 :=
    Nat.exists_eq_succ_of_ne_zero (Nat.ne_of_gt n.height_pos)
  rw [whole, height]
  refine Print.layer_congr fun c part => doc_eq_whole ?_
  have lower := Print.height_lt_of_mem_parts part
  omega

/-- Whatever stands in a tree is printed with it, but for the declaration in the head of a loop. -/
theorem part_whole {n s : Node} (member : s ∈ n.subtrees) (other : s.kind ≠ .variableStatement) :
    s.whole.Part n.whole := by
  induction height : n.height using Nat.strong_induction_on generalizing n with
  | h height ih =>
    rcases Print.mem_subtrees_parts member with rfl | ⟨c, part, below⟩ | declares
    · exact .self
    · have inside := ih c.height (height ▸ Print.height_lt_of_mem_parts part) below rfl
      rw [n.whole_eq]
      exact inside.trans (Print.part_layer whole part)
    · exact absurd declares other

end Node
end PureEnum
