import PureEnum.Proofs.Enclosure

/-! Unwrapping: the inverse of gathering. In every statement list, from the inside out, an enclosed
statement is replaced by the statements that it stands for. A tree that held no enclosed statement
is got back, whatever was gathered in it and wherever the limit was met. -/
namespace PureEnum

namespace Node

def openedAs (s inner : Node) : List Node :=
  if s.standsFor?.isSome then inner.standsFor?.getD [inner] else [inner]

def unwrapOver (n : Node) (inside : Layer Node) : Node :=
  match n, inside.node with
  | .scope _ statements, .scope head inner =>
    .scope head ((statements.zip inner).flatMap fun (s, inner) => s.openedAs inner)
  | _, inner => inner

/-- Replaces every enclosed statement of every statement list. Whether a statement is enclosed is
asked of it as it stands in the tree. -/
def unwrap (n : Node) : Node := n.recurse unwrapOver

theorem unwrap_eq (n : Node) : n.unwrap = n.unwrapOver (n.layer.map unwrap) := recurse_eq _ n

theorem zip_openedAs (f : Node → Node) (statements : List Node) :
    ((statements.zip (statements.map f)).flatMap fun (s, inner) => s.openedAs inner) =
      statements.flatMap fun s => s.openedAs (f s) := by
  induction statements with
  | nil => rfl
  | cons s statements ih =>
    rw [List.map_cons, List.zip_cons_cons, List.flatMap_cons, List.flatMap_cons, ih]

theorem unwrap_scope (head : ScopeHead Node) (statements : List Node) :
    (Node.scope head statements).unwrap =
      .scope (head.map unwrap) (statements.flatMap fun s => s.openedAs s.unwrap) := by
  have inside : ((Node.scope head statements).layer.map unwrap).node =
      .scope (head.map unwrap) (statements.map unwrap) := by
    cases head <;> rfl
  simp only [unwrap_eq (.scope head statements), unwrapOver, inside, zip_openedAs]

theorem unwrap_of_not_scope {n : Node} (own : n.statements? = none) :
    n.unwrap = (n.layer.map unwrap).node := by
  rw [unwrap_eq]
  cases n with
  | scope => simp at own
  | _ => rfl

def Unenclosed (n : Node) : Prop := ∀ statements ∈ n.scopes, ∀ s ∈ statements, s.standsFor? = none

theorem unenclosed_iff {n : Node} : n.Unenclosed ↔
    (∀ statements ∈ n.statements?, ∀ s ∈ statements, s.standsFor? = none) ∧
      ∀ c ∈ n.children, c.Unenclosed := by
  rw [Unenclosed, scopes_eq, List.forall_mem_append, List.forall_mem_flatMap]
  simp only [Option.mem_toList]
  rfl

theorem Unenclosed.child {n c : Node} (unenclosed : n.Unenclosed) (member : c ∈ n.children) :
    c.Unenclosed := (unenclosed_iff.mp unenclosed).2 c member

theorem openedAs_of_none {s inner : Node} (other : s.standsFor? = none) :
    s.openedAs inner = [inner] := by
  rw [openedAs, other]
  rfl

/-- Statements that a change leaves open are got back when each of them is. -/
theorem flatMap_openedAs {f : Node → Node} {statements : List Node}
    (other : ∀ s ∈ statements, (f s).standsFor? = none)
    (back : ∀ s ∈ statements, (f s).unwrap = s) :
    ((statements.map f).flatMap fun s => s.openedAs s.unwrap) = statements := by
  have each : ∀ s ∈ statements, (f s).openedAs (f s).unwrap = [s] := fun s member => by
    rw [openedAs_of_none (other s member), back s member]
  rw [List.flatMap_map, List.flatMap_congr each, List.flatMap_singleton']

/-- Where nothing is enclosed, nothing changes. -/
theorem Unenclosed.unwrap_eq_self {n : Node} (unenclosed : n.Unenclosed) : n.unwrap = n := by
  induction n using induction_on_children with
  | step n ih =>
    obtain ⟨own, below⟩ := unenclosed_iff.mp unenclosed
    rcases n.scope_or with ⟨head, statements, rfl⟩ | bare
    · rw [children_scope] at ih below
      have test : head.map unwrap = head := ScopeHead.map_eq_self_iff.mpr fun c member =>
        ih c (List.mem_append_left _ member) (below c (List.mem_append_left _ member))
      have each := flatMap_openedAs (f := id) (own statements (statements?_scope ..))
        fun s member => ih s (List.mem_append_right _ member)
          (below s (List.mem_append_right _ member))
      rw [List.map_id] at each
      rw [unwrap_scope, test, each]
    · rw [unwrap_of_not_scope bare, Layer.node_eq_iff, Layer.map_eq_self_iff]
      exact fun c member => ih c member (below c member)

end Node

/-- Every wrapper recognised in a list is the exact call that a compiler emits. -/
def ExactWrappers (statements : List Node) : Prop := ∀ index c,
  Candidate.at? statements index = some c → c.shape = .wrapped →
    ∃ modifiers label initializer members, statements[index + 1]? =
      some (.expressionStatement (Enum.fillCall c.name modifiers label initializer members))

theorem ExactWrappers.drop {statements : List Node} (exact : ExactWrappers statements)
    (skip : Nat) : ExactWrappers (statements.drop skip) := by
  intro index c found wrapped
  rw [Candidate.at?, List.drop_drop] at found
  rw [List.getElem?_drop]
  exact exact (skip + index) c found wrapped

theorem ExactWrappers.behind {anchor : Node} {run rest : List Node}
    (exact : ExactWrappers (anchor :: (run ++ rest))) : ExactWrappers rest := by
  have dropped := exact.drop (run.length + 1)
  rwa [List.drop_succ_cons, List.drop_left] at dropped

namespace Gather

def Exact (depth : Nat) (n : Node) : Prop := ∀ statements ∈ walked depth n, ExactWrappers statements

theorem Exact.handed {depth : Nat} {n c : Node} (exact : Exact depth n) (member : c ∈ n.handed) :
    Exact (depth - 1) c := by
  cases depth with
  | zero => exact fun _ absent => absurd absent List.not_mem_nil
  | succ depth =>
    intro statements walks
    exact exact statements (List.mem_append_right _ (List.mem_flatMap.mpr ⟨c, member, walks⟩))

theorem Exact.child {depth : Nat} {n c : Node} (exact : Exact depth n) (own : n.statements? = none)
    (member : c ∈ n.children) : Exact (depth - 1) c :=
  exact.handed (by rwa [Node.handed_of_not_scope own])

theorem Exact.own {depth : Nat} {head : ScopeHead Node} {statements : List Node}
    (exact : Exact (depth + 1) (.scope head statements)) : ExactWrappers statements :=
  exact statements (List.mem_append_left _ (by simp))

end Gather

namespace Node

theorem unwrap_identifier (name : String) : (Node.identifier name).unwrap = .identifier name :=
  unwrap_of_not_scope rfl

theorem unwrap_declared (modifiers : Modifiers) (keyword : Keyword) (name : String) (value : Node) :
    (Node.declareWith modifiers keyword name (some value)).unwrap =
      .declareWith modifiers keyword name (some value.unwrap) := by
  rw [declareWith, unwrap_of_not_scope rfl]
  change Node.variableStatement _ _ [⟨(Node.identifier name).unwrap, _⟩] = _
  rw [unwrap_identifier]
  rfl

theorem unwrap_returned (name : String) :
    (Node.returnStatement (some (.identifier name))).unwrap =
      .returnStatement (some (.identifier name)) := by
  rw [unwrap_of_not_scope rfl]
  change Node.returnStatement (some (Node.identifier name).unwrap) = _
  rw [unwrap_identifier]

theorem unwrap_marked (inner : Node) : (markPure inner).unwrap = markPure inner.unwrap :=
  unwrap_of_not_scope rfl

theorem unwrap_parenthesized (inner : Node) :
    (Node.parenthesizedExpression inner).unwrap = .parenthesizedExpression inner.unwrap :=
  unwrap_of_not_scope rfl

theorem unwrap_call (callee : Node) (arguments : List Node) :
    (Node.callExpression callee arguments).unwrap =
      .callExpression callee.unwrap (arguments.map unwrap) := unwrap_of_not_scope rfl

theorem unwrap_function (modifiers : Modifiers) (label : Option String)
    (parameters : List (Parameter Node)) (body : Node) :
    (Node.functionExpression modifiers label parameters body).unwrap =
      .functionExpression modifiers label (parameters.map (Parameter.map unwrap)) body.unwrap :=
  unwrap_of_not_scope rfl

end Node

theorem Enclosure.unwrap_statement (e : Enclosure) : e.statement.unwrap = statement { e with
    parameters := e.parameters.map (Parameter.map Node.unwrap)
    body := e.body.flatMap fun s => s.openedAs s.unwrap
    arguments := e.arguments.map Node.unwrap } := by
  rw [statement, Node.unwrap_declared, Node.unwrap_marked, Node.unwrap_parenthesized,
    Node.unwrap_call, Node.unwrap_parenthesized, Node.unwrap_function, Node.block,
    Node.unwrap_scope]
  rfl

theorem openedAs_returned (name : String) :
    ((Node.returnStatement (some (.identifier name))).openedAs
      (Node.returnStatement (some (.identifier name))).unwrap) =
        [.returnStatement (some (.identifier name))] := by
  rw [Node.openedAs_of_none rfl, Node.unwrap_returned]

namespace Gather

def Undone (depth : Nat) : Prop :=
  ∀ n : Node, n.Unenclosed → Exact depth n → (result depth n).unwrap = n

/-- The statement built for members stands for their literal and for them. -/
theorem Undone.opened_run {depth : Nat} (undone : Undone depth) (modifiers : Modifiers)
    (keyword : Keyword) {name : String} {properties members : List Node}
    (run : Enum.isRun name properties members)
    (literal : (Node.objectLiteralExpression properties).Unenclosed)
    (unenclosed : ∀ s ∈ members, s.Unenclosed) (exact : ∀ s ∈ members, Exact depth s)
    {s : Node} (built : s = (Enclosure.ofRun modifiers keyword name properties
      (members.map (result depth))).statement) :
    s.openedAs s.unwrap =
      (Candidate.ofRun modifiers keyword name properties members).anchor :: members := by
  have moved := (Enum.isRun_map_result properties depth members).trans run
  have other : ∀ s ∈ members, (result depth s).standsFor? = none := by
    intro s member
    obtain ⟨e, evaluates⟩ := Enum.evaluates_of_isRun moved _ (List.mem_map_of_mem member)
    rw [evaluates]
    rfl
  have back : s.unwrap = (Enclosure.ofRun modifiers keyword name properties members).statement := by
    have inside := Node.flatMap_openedAs other fun s member =>
      undone s (unenclosed s member) (exact s member)
    rw [built, Enclosure.unwrap_statement]
    apply congrArg Enclosure.statement
    simp only [Enclosure.ofRun, Enclosure.mk.injEq, List.map_nil, List.flatMap_cons,
      List.flatMap_append, inside, List.flatMap_nil, openedAs_returned, true_and, and_true,
      List.append_nil]
    rw [Node.openedAs_of_none rfl, Node.declare, Node.unwrap_declared, literal.unwrap_eq_self]
    rfl
  rw [Node.openedAs, built, standsFor?_ofRun _ _ moved, ← built, back, standsFor?_ofRun _ _ run]
  rfl

/-- What holds of a wrapper call down to its parameter default and its members. -/
theorem fillCall_inside {depth : Nat} {name : String} {modifiers : Modifiers}
    {label : Option String} {initializer : Option Node} {members : List Node}
    (reverse : ∀ s ∈ members, Enum.setsReverse name s)
    (unenclosed : (Enum.fillCall name modifiers label initializer members).Unenclosed)
    (exact : Exact depth (Enum.fillCall name modifiers label initializer members)) :
    (∀ value ∈ initializer, value.Unenclosed ∧ Exact (depth - 1 - 1 - 1) value) ∧
      ∀ s ∈ members, s.Unenclosed ∧ Exact (depth - 1 - 1 - 1 - 1) s := by
  have callee : Node.parenthesizedExpression (.functionExpression modifiers label
      [⟨.identifier name, initializer, false⟩] (.block members)) ∈
        (Enum.fillCall name modifiers label initializer members).children := by
    rw [Enum.fillCall, Enum.wrapperCallOf, Node.children_callExpression]
    exact List.mem_cons_self
  have function := unenclosed.child callee |>.child List.mem_cons_self
  have visited := (exact.child rfl callee).child rfl List.mem_cons_self
  have children := Node.children_functionExpression modifiers label
    [⟨.identifier name, initializer, false⟩] (.block members)
  refine ⟨fun value given => ?_, fun s member => ?_⟩
  · have inside : value ∈ (Node.functionExpression modifiers label
        [⟨.identifier name, initializer, false⟩] (.block members)).children := by
      rw [children, Option.mem_def.mp given]
      simp [Parameter.children]
    exact ⟨function.child inside, visited.child rfl inside⟩
  · have inside : Node.block members ∈ (Node.functionExpression modifiers label
        [⟨.identifier name, initializer, false⟩] (.block members)).children := by
      rw [children]
      exact List.mem_append_right _ List.mem_cons_self
    have cut := segmented_plain fun s member => Enum.startsNothing_of_setsReverse (reverse s member)
    have given : s ∈ (Node.block members).handed := by
      rw [Node.block, Node.handed, ← cut.eq_ofList]
      simpa [ScopeHead.children, Segment.parts, List.flatMap_map] using member
    have stands : s ∈ (Node.block members).children := by
      rw [Node.block, Node.children_scope]
      exact List.mem_append_right _ member
    exact ⟨(function.child inside).child stands, (visited.child rfl inside).handed given⟩

/-- The statement built for a wrapper stands for its declaration and its call. -/
theorem opened_call {depth : Nat} (undone : ∀ less ≤ depth, Undone less) (modifiers : Modifiers)
    (keyword : Keyword) {name : String} {functionModifiers : Modifiers} {label : Option String}
    {initializer : Option Node} {members : List Node}
    (reverse : ∀ s ∈ members, Enum.setsReverse name s)
    (unenclosed : (Enum.fillCall name functionModifiers label initializer members).Unenclosed)
    (exact : Exact depth (Enum.fillCall name functionModifiers label initializer members))
    {s : Node} (built : s = ((Candidate.ofCall modifiers keyword name
      (Enum.fillCall name functionModifiers label initializer members)).visited
        (result depth)).statement) :
    s.openedAs s.unwrap = [.declareWith modifiers keyword name none, .expressionStatement
      (Enum.fillCall name functionModifiers label initializer members)] := by
  obtain ⟨inParameter, inMembers⟩ := fillCall_inside reverse unenclosed exact
  have moved : ∀ s ∈ members.map (result (depth - 1 - 1 - 1 - 1)), Enum.setsReverse name s := by
    simpa [Enum.setsReverse_result] using reverse
  have form : s = (Enclosure.ofCall modifiers keyword name functionModifiers label
      (initializer.map (result (depth - 1 - 1 - 1)))
      (members.map (result (depth - 1 - 1 - 1 - 1)))).statement :=
    built.trans (statement_visited_call depth _ _ _ _ _ _ reverse)
  have other : ∀ s ∈ members, (result (depth - 1 - 1 - 1 - 1) s).standsFor? = none := by
    intro s member
    obtain ⟨_, _, _, evaluates⟩ := Enum.setsReverse_iff.mp (moved _ (List.mem_map_of_mem member))
    rw [evaluates]
    rfl
  have back : s.unwrap = (Enclosure.ofCall modifiers keyword name functionModifiers label
      initializer members).statement := by
    have default : (initializer.map (result (depth - 1 - 1 - 1))).map Node.unwrap =
        initializer := by
      cases initializer with
      | none => rfl
      | some value =>
        obtain ⟨bare, exact⟩ := inParameter value rfl
        exact congrArg some (undone _ (by omega) value bare exact)
    have inside := Node.flatMap_openedAs other fun s member =>
      undone _ (by omega) s (inMembers s member).1 (inMembers s member).2
    have object : Node.emptyObject.unwrap = .emptyObject := Node.unwrap_of_not_scope rfl
    rw [form, Enclosure.unwrap_statement]
    apply congrArg Enclosure.statement
    simp only [Enclosure.ofCall, List.map_cons, List.map_nil, Parameter.map, default, object,
      Node.unwrap_identifier, List.flatMap_append, List.flatMap_cons, List.flatMap_nil, inside,
      openedAs_returned, List.append_nil]
  rw [Node.openedAs, form, standsFor?_ofCall _ _ _ _ _ moved, ← form, back,
    standsFor?_ofCall _ _ _ _ _ reverse]
  rfl

/-- The statement built for an enum stands for its anchor and its run. -/
theorem opened_enum {depth : Nat} (undone : ∀ less ≤ depth, Undone less) {c : Candidate}
    {run rest : List Node} (fits : c.Fits run rest)
    (exact : ExactWrappers (c.anchor :: (run ++ rest))) (anchor : c.anchor.Unenclosed)
    (unenclosed : ∀ s ∈ run, s.Unenclosed) (parts : ∀ part ∈ c.run.parts, Exact depth part) :
    (c.visited (result depth)).statement.openedAs (c.visited (result depth)).statement.unwrap =
      c.anchor :: run := by
  have found := Candidate.find?_eq_some.mpr ⟨run, rest, rfl, fits⟩
  rcases fits.call_or_run with ⟨modifiers, keyword, name, s, call, rfl, rfl, wrapped⟩ |
    ⟨modifiers, keyword, name, properties, rfl, isRun⟩
  · obtain ⟨functionModifiers, label, initializer, members, stands⟩ := exact 0 _ found rfl
    obtain rfl : s = .expressionStatement
        (Enum.fillCall name functionModifiers label initializer members) := by
      simpa [Candidate.ofCall] using stands
    obtain ⟨e, _, _, _, _, _, _, evaluates, rfl, -, -⟩ := Enum.wrapperCall?_eq_some.mp wrapped
    obtain rfl := Node.expressionStatement.inj evaluates
    have same : (Enum.fillCall name functionModifiers label initializer members).skipParens =
        Enum.fillCall name functionModifiers label initializer members := rfl
    rw [same] at wrapped parts ⊢
    obtain ⟨-, reverse⟩ := Enum.wrapperCall?_scope wrapped
    have call := unenclosed _ List.mem_cons_self
    exact opened_call undone modifiers keyword reverse (call.child List.mem_cons_self)
      (parts _ List.mem_cons_self) rfl
  · have literal : (Node.objectLiteralExpression properties).Unenclosed :=
      anchor.child (by simp [Candidate.anchor, Candidate.ofRun, Node.children, Node.layer,
        Layer.children, Row.children, Slot.children, Declaration.children])
    rw [Candidate.parts_ofRun] at parts
    exact Undone.opened_run (undone depth le_rfl) modifiers keyword isRun literal unenclosed parts
      (statement_visited_run ..)

/-- Each enclosed statement of a walked list opens into the statements that it replaced. -/
theorem unwrap_walked {depth : Nat} (undone : ∀ less ≤ depth, Undone less) {statements : List Node}
    {segments : List Segment} (cut : Segmented statements segments) :
    ExactWrappers statements → (∀ s ∈ statements, s.standsFor? = none ∧ s.Unenclosed) →
      (∀ g ∈ segments, ∀ c ∈ g.parts, Exact depth c) →
      ((segments.map (Segment.after (result depth))).flatMap fun s => s.openedAs s.unwrap) =
        statements := by
  induction cut with
  | nil => exact fun _ _ _ => rfl
  | pinned s _ _ ih =>
    intro exact bare parts
    obtain ⟨own, bare⟩ := List.forall_mem_cons.mp bare
    have rest := ih (exact.drop 1) bare (List.forall_mem_cons.mp parts).2
    rw [List.map_cons, List.flatMap_cons, rest, Segment.after, Node.openedAs_of_none own.1,
      own.2.unwrap_eq_self]
    rfl
  | plain s _ _ _ ih =>
    intro exact bare parts
    obtain ⟨own, bare⟩ := List.forall_mem_cons.mp bare
    obtain ⟨part, parts⟩ := List.forall_mem_cons.mp parts
    have rest := ih (exact.drop 1) bare parts
    have other : (result depth s).standsFor? = none := by
      by_contra enclosed
      have := isSome_standsFor?_result (Option.isSome_iff_ne_none.mpr enclosed)
      rw [own.1] at this
      contradiction
    rw [List.map_cons, List.flatMap_cons, rest, Segment.after, Node.openedAs_of_none other,
      undone depth le_rfl s own.2 (part s List.mem_cons_self)]
    rfl
  | enum c fits _ ih =>
    intro exact bare parts
    obtain ⟨own, bare⟩ := List.forall_mem_cons.mp bare
    obtain ⟨inRun, bare⟩ := List.forall_mem_append.mp bare
    obtain ⟨part, parts⟩ := List.forall_mem_cons.mp parts
    have rest := ih exact.behind bare parts
    have opened := opened_enum undone fits exact own.2 (fun s member => (inRun s member).2) part
    rw [List.map_cons, List.flatMap_cons, rest, Segment.after, opened]
    rfl

theorem undone_scope {depth : Nat} (undone : ∀ less ≤ depth, Undone less) (head : ScopeHead Node)
    (statements : List Node) (unenclosed : (Node.scope head statements).Unenclosed)
    (exact : Exact (depth + 1) (.scope head statements)) :
    (result (depth + 1) (.scope head statements)).unwrap = .scope head statements := by
  have cut := Segment.segmented_ofList statements
  have bare := Node.unenclosed_iff.mp unenclosed
  rw [Node.children_scope, List.forall_mem_append] at bare
  obtain ⟨own, inHead, below⟩ := bare
  have handed : ∀ c ∈ head.children ++ (Segment.ofList statements).flatMap Segment.parts,
      Exact depth c := fun c member => exact.handed member
  have test : (head.map (result depth)).map Node.unwrap = head := by
    cases head with
    | caseOf test =>
      exact congrArg ScopeHead.caseOf (undone depth le_rfl test (inHead test List.mem_cons_self)
        (handed test List.mem_cons_self))
    | _ => rfl
  have list := unwrap_walked undone cut exact.own
    (fun s member => ⟨own statements (Node.statements?_scope ..) s member, below s member⟩)
    fun g member c part =>
      handed c (List.mem_append_right _ (List.mem_flatMap.mpr ⟨g, member, part⟩))
  change (Node.scope (head.map (result depth))
    ((Segment.ofList statements).map (Segment.after (result depth)))).unwrap = _
  rw [Node.unwrap_scope, test, list]

/-- Unwrapping undoes a visit, whatever room it had. -/
theorem undone (depth : Nat) : Undone depth := by
  induction depth using Nat.strong_induction_on with
  | _ depth ih =>
    intro n unenclosed exact
    obtain _ | depth := depth
    · exact unenclosed.unwrap_eq_self
    rcases n.scope_or with ⟨head, statements, rfl⟩ | own
    · exact undone_scope (fun less below => ih less (Nat.lt_succ_of_le below)) head statements
        unenclosed exact
    · rw [result, Node.rebuild_of_not_scope own,
        Node.unwrap_of_not_scope (Node.statements?_map own), Layer.layer_node,
        Layer.map_map, Layer.node_eq_iff, Layer.map_eq_self_iff]
      intro c member
      exact ih depth (Nat.lt_succ_self depth) c (unenclosed.child member)
        (exact.child own member)

/-- Nothing is lost and nothing doubled: gathering succeeds, and unwrapping what it gives is the
tree it was given, if that held no enclosed statement and its wrappers are exact. -/
theorem unwrap_gathered (t : Node) (unenclosed : t.Unenclosed) (exact : Exact maxTreeDepth t) :
    ∃ e p, t.gather.run .start = .ok (e, p) ∧ (e.applyTo t).unwrap = t := by
  refine ⟨_, _, settles_node maxTreeDepth t .start, ?_⟩
  rw [applyTo_edit]
  exact undone maxTreeDepth t unenclosed exact

def compiled : Node :=
  .file "compiled.js" [.declare "E" none,
    .expressionStatement (Enum.fillCall "E" .empty none none [.expressionStatement (.assign
      (.elementAccessExpression (.identifier "E") (.assign (.elementAccessExpression
        (.identifier "E") (.stringLiteral "A")) (.numericLiteral "0"))) (.stringLiteral "A"))]),
    .declare "F" (some .emptyObject),
    .expressionStatement (.assign (.elementAccessExpression (.identifier "F")
      (.numericLiteral "0")) (.stringLiteral "B")),
    .expressionStatement (.callExpression (.identifier "use") [.identifier "E", .identifier "F"])]

theorem unenclosed_compiled : compiled.Unenclosed := by
  simp only [Node.Unenclosed, compiled, Node.file, Node.declare, Node.declareWith, Enum.fillCall,
    Enum.wrapperCallOf, Node.block, Node.assign, Node.either, Node.emptyObject, Node.scopes_eq,
    Node.statements?, Option.toList_some, Node.children, Layer.children, Node.layer, Row.children,
    Slot.children, Cell.children, List.append_nil, List.nil_append, List.flatMap_cons,
    Option.toList_none, Declaration.children, List.flatMap_nil, List.cons_append,
    Parameter.children, List.mem_cons, List.not_mem_nil, or_false, forall_eq_or_imp, forall_eq]
  exact ⟨⟨rfl, rfl, rfl, rfl, rfl⟩, rfl⟩

theorem exact_compiled : Exact maxTreeDepth compiled := by
  have lists : walked maxTreeDepth compiled = [[_, _, _, _, _], [_]] := rfl
  rw [Exact, lists, List.forall_mem_cons, List.forall_mem_singleton]
  constructor
  · intro index c found wrapped
    rcases index with _ | _ | _ | _ | _ | index
    · obtain rfl := Option.some.inj found
      exact ⟨_, _, _, _, rfl⟩
    · contradiction
    · obtain rfl := Option.some.inj found
      contradiction
    · contradiction
    · contradiction
    · simp [Candidate.at?, Candidate.find?] at found
  · intro index c found wrapped
    rcases index with _ | index
    · contradiction
    · simp [Candidate.at?, Candidate.find?] at found

/-- Both enums are gathered and got back. -/
theorem unwrap_gathered_compiled : compiled.Unenclosed ∧ Exact maxTreeDepth compiled ∧
    ∃ e p, compiled.gather.run .start = .ok (e, p) ∧ (e.applyTo compiled).unwrap = compiled :=
  ⟨unenclosed_compiled, exact_compiled,
    unwrap_gathered compiled unenclosed_compiled exact_compiled⟩

end Gather
end PureEnum
