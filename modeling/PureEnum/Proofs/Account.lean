import PureEnum.Enum.Trace
import PureEnum.Proofs.Order
import PureEnum.Proofs.SecondRun
import PureEnum.Proofs.Subtrees

/-! The account of a run: which enums a tree holds as enclosed statements, told from their form
alone, and that a visit leaves exactly those that it notes. A built statement may move into the
function built around it, but none is dropped, doubled or changed there, and nothing else that a
visit leaves has the form of one. -/
namespace PureEnum

namespace Node

/-- Name, shape and run length of the enum that a statement encloses. -/
def enclosedOutline? (s : Node) : Option (String × Shape × Nat) := do
  let e ← s.enclosure?
  match e.members? with
  | some (properties, members) =>
    return (e.name, if properties.isEmpty then .flatIndexed else .fixedCount, members.length)
  | none =>
    let _ ← e.wrapped?
    return (e.name, .wrapped, 1)

def enclosedEnums (n : Node) : List (String × Shape × Nat) :=
  n.subtrees.filterMap enclosedOutline?

theorem isSome_enclosedOutline? (s : Node) :
    s.enclosedOutline?.isSome = s.standsFor?.isSome := by
  unfold enclosedOutline? standsFor?
  cases s.enclosure? with
  | none => rfl
  | some e =>
    simp only [Option.bind_eq_bind, Option.bind_some]
    cases e.members? with
    | some => rfl
    | none => cases e.wrapped? <;> rfl

theorem enclosedEnums_eq (n : Node) :
    n.enclosedEnums = n.enclosedOutline?.toList ++ n.children.flatMap enclosedEnums := by
  rw [enclosedEnums, subtrees_eq, List.filterMap_cons, List.filterMap_flatMap]
  cases n.enclosedOutline? <;> rfl

theorem enclosedEnums_of_none {n : Node} (other : n.enclosedOutline? = none) :
    n.enclosedEnums = n.children.flatMap enclosedEnums := by
  rw [enclosedEnums_eq, other]
  rfl

theorem enclosedEnums_eq_nil_iff {n : Node} :
    n.enclosedEnums = [] ↔ ∀ s ∈ n.subtrees, s.enclosedOutline? = none :=
  List.filterMap_eq_nil_iff

theorem enclosedEnums_eq_nil_of_mem {n s : Node} (none : n.enclosedEnums = [])
    (member : s ∈ n.subtrees) : s.enclosedEnums = [] :=
  enclosedEnums_eq_nil_iff.mpr fun below inside =>
    enclosedEnums_eq_nil_iff.mp none below (mem_subtrees_trans member inside)

theorem enclosedEnums_eq_nil_of_child {n c : Node} (none : n.enclosedEnums = [])
    (child : c ∈ n.children) : c.enclosedEnums = [] :=
  enclosedEnums_eq_nil_of_mem none (child_mem_subtrees child)

theorem enclosedEnums_identifier (name : String) : (identifier name).enclosedEnums = [] :=
  enclosedEnums_of_none rfl

theorem enclosedEnums_returned (name : String) :
    (returnStatement (some (.identifier name))).enclosedEnums = [] := by
  rw [enclosedEnums_of_none rfl]
  exact (List.flatMap_singleton ..).trans (enclosedEnums_identifier name)

theorem enclosedEnums_emptyObject : emptyObject.enclosedEnums = [] := enclosedEnums_of_none rfl

theorem enclosedEnums_declared {s name value : Node} (children : s.children = [name, value])
    (other : name.enclosedEnums = []) :
    s.enclosedEnums = s.enclosedOutline?.toList ++ value.enclosedEnums := by
  rw [enclosedEnums_eq, children, List.flatMap_cons, List.flatMap_singleton, other]
  rfl

theorem enclosedEnums_marked (inner : Node) :
    (markPure inner).enclosedEnums = inner.enclosedEnums :=
  (enclosedEnums_of_none rfl).trans (List.flatMap_singleton ..)

theorem enclosedEnums_parenthesized (inner : Node) :
    (parenthesizedExpression inner).enclosedEnums = inner.enclosedEnums :=
  (enclosedEnums_of_none rfl).trans (List.flatMap_singleton ..)

/-- What a call of a function over a block encloses stands in the parameters, the block or the
arguments. -/
theorem enclosedEnums_called (modifiers : Modifiers) (label : Option String)
    (parameters : List (Parameter Node)) (body arguments : List Node) :
    (callExpression (.parenthesizedExpression (.functionExpression modifiers label parameters
      (.block body))) arguments).enclosedEnums =
        (parameters.flatMap Parameter.children).flatMap enclosedEnums ++
          (body.flatMap enclosedEnums ++ arguments.flatMap enclosedEnums) := by
  have block : (Node.block body).enclosedEnums = body.flatMap enclosedEnums := by
    rw [enclosedEnums_of_none rfl, Node.block, children_scope]
    rfl
  rw [enclosedEnums_of_none rfl, children_callExpression, List.flatMap_cons,
    enclosedEnums_parenthesized, enclosedEnums_of_none (n := functionExpression ..) rfl,
    children_functionExpression, List.flatMap_append, List.flatMap_singleton, block,
    List.append_assoc]

end Node

namespace Enclosure

/-- What is enclosed inside a statement stands in its function or in the arguments of its call. -/
theorem enclosedEnums_statement (e : Enclosure) : e.statement.enclosedEnums =
    e.statement.enclosedOutline?.toList ++
      ((e.parameters.flatMap Parameter.children).flatMap Node.enclosedEnums ++
        (e.body.flatMap Node.enclosedEnums ++ e.arguments.flatMap Node.enclosedEnums)) := by
  rw [Node.enclosedEnums_declared rfl (Node.enclosedEnums_identifier e.name),
    Node.enclosedEnums_marked, Node.enclosedEnums_parenthesized, Node.block,
    ← Node.enclosedEnums_called]
  rfl

theorem enclosedOutline?_ofRun (modifiers : Modifiers) (keyword : Keyword) {name : String}
    {properties members : List Node} (run : Enum.isRun name properties members) :
    (ofRun modifiers keyword name properties members).statement.enclosedOutline? =
      some (Candidate.ofRun modifiers keyword name properties members).outline := by
  have found : (ofRun modifiers keyword name properties members).members? =
      some (properties, members) := members?_eq_some.mpr ⟨rfl, run⟩
  simp only [Node.enclosedOutline?, Node.enclosure?_eq_some.mpr rfl, Option.bind_eq_bind,
    Option.bind_some, found, Candidate.outline_ofRun]
  rfl

theorem enclosedOutline?_ofCall (modifiers : Modifiers) (keyword : Keyword) {name : String}
    (functionModifiers : Modifiers) (label : Option String) (initializer : Option Node)
    {members : List Node} (reverse : ∀ s ∈ members, Enum.setsReverse name s) :
    (ofCall modifiers keyword name functionModifiers label initializer
      members).statement.enclosedOutline? = some (name, .wrapped, 1) := by
  have found : (ofCall modifiers keyword name functionModifiers label initializer
      members).wrapped? = some (initializer, members) := wrapped?_eq_some.mpr ⟨rfl, reverse⟩
  have other : (ofCall modifiers keyword name functionModifiers label initializer
      members).members? = none := by
    cases label <;> rfl
  simp only [Node.enclosedOutline?, Node.enclosure?_eq_some.mpr rfl, Option.bind_eq_bind,
    Option.bind_some, other, found]
  rfl

/-- A statement built for members encloses their enum, and what its members enclose. -/
theorem enclosedEnums_ofRun (modifiers : Modifiers) (keyword : Keyword) {name : String}
    {properties members : List Node} (run : Enum.isRun name properties members)
    (literal : (Node.objectLiteralExpression properties).enclosedEnums = []) :
    (ofRun modifiers keyword name properties members).statement.enclosedEnums =
      (Candidate.ofRun modifiers keyword name properties members).outline ::
        members.flatMap Node.enclosedEnums := by
  have object : (Node.declare name
      (some (.objectLiteralExpression properties))).enclosedEnums = [] := by
    rw [Node.enclosedEnums_declared rfl (Node.enclosedEnums_identifier name), literal]
    rfl
  rw [enclosedEnums_statement, enclosedOutline?_ofRun _ _ run]
  simp [ofRun, object, Node.enclosedEnums_returned]

/-- A statement built for a wrapper encloses its enum, and what its parameter and its members
enclose. -/
theorem enclosedEnums_ofCall (modifiers : Modifiers) (keyword : Keyword) {name : String}
    (functionModifiers : Modifiers) (label : Option String) (initializer : Option Node)
    {members : List Node} (reverse : ∀ s ∈ members, Enum.setsReverse name s) :
    (ofCall modifiers keyword name functionModifiers label initializer
      members).statement.enclosedEnums = (name, .wrapped, 1) ::
        (initializer.toList.flatMap Node.enclosedEnums ++ members.flatMap Node.enclosedEnums) := by
  rw [enclosedEnums_statement, enclosedOutline?_ofCall _ _ _ _ _ reverse]
  simp [ofCall, Parameter.children, Node.enclosedEnums_identifier, Node.enclosedEnums_returned,
    Node.enclosedEnums_emptyObject]

end Enclosure

namespace Gather

variable {depth : Nat}

theorem found_block {name : String} {members : List Node}
    (reverse : ∀ s ∈ members, Enum.setsReverse name s) (depth : Nat) :
    found depth (.block members) = members.flatMap (found (depth - 1)) := by
  cases depth with
  | zero => exact (List.flatMap_eq_nil_iff.mpr fun _ _ => rfl).symm
  | succ depth =>
    have cut := segmented_plain fun s member => Enum.startsNothing_of_setsReverse (reverse s member)
    rw [Node.block, found_scope cut]
    simp [ScopeHead.children, List.flatMap_map, Segment.candidates, Segment.parts]

/-- What a visit finds in a tidy wrapper call, whatever its room. -/
theorem found_tidy {name : String} {modifiers : Modifiers} {label : Option String}
    {initializer : Option Node} {members arguments : List Node}
    (reverse : ∀ s ∈ members, Enum.setsReverse name s) (bare : ∀ a ∈ arguments, a.scopes = [])
    (depth : Nat) :
    found depth (Enum.wrapperCallOf modifiers label ⟨.identifier name, initializer, false⟩
      (.block members) arguments) = initializer.toList.flatMap (found (depth - 1 - 1 - 1)) ++
        members.flatMap (found (depth - 1 - 1 - 1 - 1)) := by
  rw [Enum.wrapperCallOf, found_of_not_scope rfl, Node.children_callExpression, List.flatMap_cons,
    flatMap_found_of_bare bare, List.append_nil, found_of_not_scope rfl]
  change [Node.functionExpression _ _ _ _].flatMap _ = _
  rw [List.flatMap_singleton, found_of_not_scope rfl, Node.children_functionExpression,
    List.flatMap_append, List.flatMap_singleton, List.flatMap_singleton, found_block reverse,
    Parameter.children, List.flatMap_cons, found_of_bare (Node.bare_identifier name),
    List.nil_append]

/-- A visit with this much room leaves exactly the enums enclosed that it finds, where there were
none before. -/
def Accounts (depth : Nat) : Prop := ∀ n : Node, n.enclosedEnums = [] →
  (∀ c ∈ found depth n, c.Tidy) → (result depth n).enclosedEnums.Perm (outlines depth n)

theorem Accounts.nodes (accounts : Accounts depth) {nodes : List Node}
    (none : ∀ n ∈ nodes, n.enclosedEnums = [])
    (tidy : ∀ c ∈ nodes.flatMap (found depth), c.Tidy) :
    ((nodes.map (result depth)).flatMap Node.enclosedEnums).Perm
      ((nodes.flatMap (found depth)).map Candidate.outline) := by
  rw [List.flatMap_map, List.map_flatMap]
  apply List.Perm.flatMap_left
  intro n member
  exact accounts n (none n member) fun c inside =>
    tidy c (List.mem_flatMap.mpr ⟨n, member, inside⟩)

/-- The statement built for members accounts for their enum and for what was found in them. -/
theorem accounts_run (accounts : Accounts depth) (modifiers : Modifiers) (keyword : Keyword)
    {name : String} {properties members : List Node} (run : Enum.isRun name properties members)
    (literal : (Node.objectLiteralExpression properties).enclosedEnums = [])
    (none : ∀ s ∈ members, s.enclosedEnums = [])
    (tidy : ∀ c ∈ members.flatMap (found depth), c.Tidy) :
    ((Candidate.ofRun modifiers keyword name properties members).visited
      (result depth)).statement.enclosedEnums.Perm
        ((Candidate.ofRun modifiers keyword name properties members ::
          members.flatMap (found depth)).map Candidate.outline) := by
  have moved := (Enum.isRun_map_result properties depth members).trans run
  have same : (Candidate.ofRun modifiers keyword name properties
      (members.map (result depth))).outline =
        (Candidate.ofRun modifiers keyword name properties members).outline := by
    rw [Candidate.outline_ofRun, Candidate.outline_ofRun, List.length_map]
  rw [statement_visited_run, Enclosure.enclosedEnums_ofRun _ _ moved literal, same, List.map_cons]
  exact .cons _ (accounts.nodes none tidy)

/-- The statement built for a tidy wrapper accounts for its enum and for what was found in its
parameter and its members. What its arguments held is nothing. -/
theorem accounts_call (accounts : ∀ less ≤ depth, Accounts less) {modifiers : Modifiers}
    {keyword : Keyword} {name : String} {s call : Node}
    (wrapped : Enum.wrapperCall? name s = some call) (none : call.enclosedEnums = [])
    (tidy : ∀ c ∈ Candidate.ofCall modifiers keyword name call :: found depth call, c.Tidy) :
    ((Candidate.ofCall modifiers keyword name call).visited
      (result depth)).statement.enclosedEnums.Perm
        ((Candidate.ofCall modifiers keyword name call :: found depth call).map
          Candidate.outline) := by
  obtain ⟨own, below⟩ := List.forall_mem_cons.mp tidy
  obtain ⟨functionModifiers, label, initializer, members, arguments, rfl, bare, reverse⟩ :=
    own.call_eq wrapped
  have moved : ∀ s ∈ members.map (result (depth - 1 - 1 - 1 - 1)), Enum.setsReverse name s := by
    simpa [Enum.setsReverse_result] using reverse
  rw [Enum.wrapperCallOf, Node.enclosedEnums_called, List.append_eq_nil_iff,
    List.append_eq_nil_iff, List.flatMap_singleton, List.flatMap_eq_nil_iff,
    List.flatMap_eq_nil_iff] at none
  obtain ⟨inParameter, inMembers, -⟩ := none
  have inInitializer := (List.forall_mem_cons.mp inParameter).2
  rw [found_tidy reverse bare] at below ⊢
  obtain ⟨tidyInitializer, tidyMembers⟩ := List.forall_mem_append.mp below
  have first := (accounts (depth - 1 - 1 - 1) (by omega)).nodes inInitializer tidyInitializer
  have second := (accounts (depth - 1 - 1 - 1 - 1) (by omega)).nodes inMembers tidyMembers
  rw [← Option.toList_map] at first
  rw [statement_visited_call _ _ _ _ _ _ _ reverse,
    Enclosure.enclosedEnums_ofCall _ _ _ _ _ moved, List.map_cons, List.map_append]
  exact .cons _ (first.append second)

/-- What a segment becomes accounts for its enum and for what was found in its parts. -/
theorem accounts_segment (accounts : ∀ less ≤ depth, Accounts less) {statements : List Node}
    {segments : List Segment} (cut : Segmented statements segments)
    (none : ∀ s ∈ statements, s.enclosedEnums = []) :
    ∀ g ∈ segments, (∀ c ∈ g.candidates ++ g.parts.flatMap (found depth), c.Tidy) →
      (g.after (result depth)).enclosedEnums.Perm
        ((g.candidates ++ g.parts.flatMap (found depth)).map Candidate.outline) := by
  induction cut with
  | nil => simp
  | pinned s _ _ ih =>
    obtain ⟨own, behind⟩ := List.forall_mem_cons.mp none
    exact List.forall_mem_cons.mpr ⟨fun _ => .of_eq own, ih behind⟩
  | plain s _ _ _ ih =>
    obtain ⟨own, behind⟩ := List.forall_mem_cons.mp none
    refine List.forall_mem_cons.mpr ⟨fun tidy => ?_, ih behind⟩
    rw [Segment.candidates, Segment.parts, List.flatMap_singleton, List.nil_append] at tidy ⊢
    exact accounts depth le_rfl s own tidy
  | enum c fits _ ih =>
    obtain ⟨anchor, following⟩ := List.forall_mem_cons.mp none
    obtain ⟨inRun, behind⟩ := List.forall_mem_append.mp following
    refine List.forall_mem_cons.mpr ⟨fun tidy => ?_, ih behind⟩
    have parts : ∀ part ∈ c.run.parts, part.enclosedEnums = [] := by
      intro part member
      obtain ⟨s, inside, below⟩ := List.mem_flatMap.mp (fits.parts_subset member)
      exact Node.enclosedEnums_eq_nil_of_mem (inRun s inside) below
    rcases fits.call_or_run with ⟨modifiers, keyword, name, s, call, rfl, -, wrapped⟩ |
      ⟨modifiers, keyword, name, properties, rfl, run⟩
    · simp only [Segment.parts, Segment.candidates, Candidate.parts_ofCall,
        List.forall_mem_singleton, List.flatMap_singleton, List.singleton_append] at parts tidy ⊢
      exact accounts_call accounts wrapped parts tidy
    · simp only [Segment.parts, Segment.candidates, Candidate.parts_ofRun, List.singleton_append]
        at parts tidy ⊢
      have literal := Node.enclosedEnums_eq_nil_of_child anchor
        (List.mem_cons_of_mem _ List.mem_cons_self)
      exact accounts_run (accounts depth le_rfl) modifiers keyword run literal parts
        (List.forall_mem_cons.mp tidy).2

theorem accounts_scope (accounts : ∀ less ≤ depth, Accounts less) (head : ScopeHead Node)
    (statements : List Node) (none : (Node.scope head statements).enclosedEnums = [])
    (tidy : ∀ c ∈ found (depth + 1) (.scope head statements), c.Tidy) :
    (result (depth + 1) (.scope head statements)).enclosedEnums.Perm
      (outlines (depth + 1) (.scope head statements)) := by
  have cut := Segment.segmented_ofList statements
  have rebuilt : result (depth + 1) (.scope head statements) = .scope (head.map (result depth))
      ((Segment.ofList statements).map (Segment.after (result depth))) := rfl
  rw [Node.enclosedEnums_of_none rfl, Node.children_scope, List.flatMap_append,
    List.append_eq_nil_iff, List.flatMap_eq_nil_iff, List.flatMap_eq_nil_iff] at none
  have whole := found_scope_perm cut head depth
  obtain ⟨inHead, inList⟩ := List.forall_mem_append.mp fun c inside =>
    tidy c (whole.symm.subset inside)
  apply List.Perm.trans _ (whole.symm.map Candidate.outline)
  rw [rebuilt, Node.enclosedEnums_of_none rfl, Node.children_scope, ScopeHead.children_map,
    List.flatMap_append, List.map_append]
  apply ((accounts depth le_rfl).nodes none.1 inHead).append
  rw [List.flatMap_map, List.map_flatMap]
  apply List.Perm.flatMap_left
  intro g member
  exact accounts_segment accounts cut none.2 g member fun c inside =>
    inList c (List.mem_flatMap.mpr ⟨g, member, inside⟩)

/-- A visit encloses nothing in place of a node itself. -/
theorem enclosedOutline?_result {n : Node} (none : n.enclosedOutline? = none) (depth : Nat) :
    (result depth n).enclosedOutline? = .none := by
  by_contra enclosed
  rw [← ne_eq, ← Option.isSome_iff_ne_none, Node.isSome_enclosedOutline?] at enclosed
  have := isSome_standsFor?_result enclosed
  rw [← Node.isSome_enclosedOutline?, none] at this
  contradiction

/-- Whatever room a visit has, what it finds is enclosed in what it leaves, and nothing else is. -/
theorem accounts (depth : Nat) : Accounts depth := by
  induction depth using Nat.strong_induction_on with
  | _ depth ih =>
    intro n none tidy
    obtain _ | depth := depth
    · exact .of_eq none
    rcases n.scope_or with ⟨head, statements, rfl⟩ | own
    · exact accounts_scope (fun less below => ih less (Nat.lt_succ_of_le below)) head statements
        none tidy
    · have rebuilt : result (depth + 1) n = (n.layer.map (result depth)).node :=
        Node.rebuild_of_not_scope own
      have other := enclosedOutline?_result (Node.enclosedEnums_eq_nil_iff.mp none n
        n.self_mem_subtrees) (depth + 1)
      rw [found_of_not_scope own] at tidy
      rw [Node.enclosedEnums_of_none other, outlines, found_of_not_scope own, rebuilt,
        Node.children_map]
      exact (ih depth (Nat.lt_succ_self depth)).nodes
        (fun c child => Node.enclosedEnums_eq_nil_of_child none child) tidy

end Gather

def Entry.outline? : Entry → Option (String × Shape × Nat)
  | enclosed name shape members => some (name, shape, members)
  | tree _ | list _ | limit _ | printed _ | done _ => none

def reported (log : List Entry) : List (String × Shape × Nat) := log.filterMap Entry.outline?

theorem Progress.reported_log (p : Progress) (root : Kind) :
    reported (p.log (.tree root)) = p.events.toList.filterMap Event.outline? := by
  have each (event : Event) : event.entries.filterMap Entry.outline? = event.outline?.toList := by
    cases event <;> rfl
  rw [reported, log, List.cons_append, List.filterMap_cons_none rfl, List.filterMap_append,
    List.filterMap_flatMap, List.filterMap_cons_none rfl, List.filterMap_nil, List.append_nil]
  simp only [each, List.filterMap_eq_flatMap_toList]

namespace Gather

/-- The log of a run agrees with what it leaves. It tells of the enums that the run finds, as many
as the number at its end says, each with the statement that its list has in the place of it. These
enums have places in the tree, and one that stands inside another one's run comes before the other,
alike or not. If the tree held no enclosed statement and its wrappers are tidy, then the enclosed
statements of what is left are the enums that the log tells of, each once. -/
theorem log_accounts (t : Node) : ∃ e p, t.gather.run .start = .ok (e, p) ∧
    (p.log (.tree t.kind)).getLast? = some (.done p.enclosed) ∧
    p.enclosed = (reported (p.log (.tree t.kind))).length ∧
    (reported (p.log (.tree t.kind))).Perm ((found maxTreeDepth t).map Candidate.outline) ∧
    reported (p.log (.tree t.kind)) = (noted maxTreeDepth t).map (·.candidate.outline) ∧
    p.events.toList.filter Event.isEnclosed = (noted maxTreeDepth t).map Discovery.event ∧
    ((noted maxTreeDepth t).map Discovery.candidate).Perm (found maxTreeDepth t) ∧
    Charted t (noted maxTreeDepth t) ∧
    (t.enclosedEnums = [] → (∀ c ∈ found maxTreeDepth t, c.Tidy) →
      p.enclosed = (e.applyTo t).enclosedEnums.length ∧
      (e.applyTo t).enclosedEnums.Perm (reported (p.log (.tree t.kind)))) := by
  refine ⟨_, _, settles_node maxTreeDepth t .start, List.getLast?_concat, ?_⟩
  have counted : (Progress.start.record (events maxTreeDepth t)).enclosed =
      ((events maxTreeDepth t).filterMap Event.outline?).length := by
    rw [Progress.enclosed_record, outlines_length]
    exact Nat.zero_add _
  have told := outlines_perm maxTreeDepth t
  rw [Progress.reported_log, toList_events_start, counted, applyTo_edit]
  refine ⟨rfl, told, outlines_eq maxTreeDepth t, filter_events maxTreeDepth t,
    noted_perm maxTreeDepth t, charted maxTreeDepth t, fun none tidy => ?_⟩
  have left := (accounts maxTreeDepth t none tidy).trans told.symm
  exact ⟨left.length_eq.symm, left⟩

def enveloped : Node :=
  let inner := Node.function none [] [.declare "I" (some .emptyObject),
    .expressionStatement (.assign (.elementAccessExpression (.identifier "I")
      (.numericLiteral "0")) (.stringLiteral "B")),
    .returnStatement (some (.identifier "I"))]
  let setsReverse := .expressionStatement (.assign (.elementAccessExpression (.identifier "E")
    (.assign (.elementAccessExpression (.identifier "E") (.stringLiteral "A")) inner))
      (.stringLiteral "A"))
  .file "enveloped.js" [.declare "E" none,
    .expressionStatement (Enum.wrapperCallOf .empty none (.plain "E") (.block [setsReverse])
      [.identifier "E"]),
    .expressionStatement (.callExpression (.identifier "use") [.identifier "E"])]

theorem unenclosed_enveloped : enveloped.enclosedEnums = [] := by
  simp only [Node.enclosedEnums, enveloped, Node.file, Node.function, Node.declare,
    Node.declareWith, Enum.wrapperCallOf, Parameter.plain, Node.block, Node.assign,
    Node.emptyObject, Node.subtrees_eq, Node.children, Layer.children, Node.layer, Row.children,
    Slot.children, Cell.children, Declaration.children, Parameter.children, Option.toList_some,
    Option.toList_none, List.append_nil, List.nil_append, List.cons_append, List.flatMap_cons,
    List.flatMap_nil]
  rfl

theorem tidy_enveloped : ∀ c ∈ found maxTreeDepth enveloped, c.Tidy := by
  have two : found maxTreeDepth enveloped = [
      .ofCall .empty .var "E" (Enum.wrapperCallOf .empty none (.plain "E") (.block [_])
        [.identifier "E"]),
      .ofRun .empty .var "I" [] [_]] := rfl
  rw [two, List.forall_mem_cons, List.forall_mem_singleton]
  constructor
  · intro call same
    obtain rfl := Run.wrapper.inj same
    exact ⟨_, _, _, _, _, rfl, List.forall_mem_singleton.mpr
      (Node.bare_iff.mpr ⟨rfl, List.forall_mem_nil _⟩)⟩
  · intro call same
    contradiction

/-- The inner enum is told first, and both are enclosed in what is left. -/
theorem log_accounts_enveloped : enveloped.enclosedEnums = [] ∧
    (∀ c ∈ found maxTreeDepth enveloped, c.Tidy) ∧
    ∃ e p, enveloped.gather.run .start = .ok (e, p) ∧
      reported (p.log (.tree enveloped.kind)) = [("I", .flatIndexed, 1), ("E", .wrapped, 1)] ∧
      (e.applyTo enveloped).enclosedEnums.Perm [("I", .flatIndexed, 1), ("E", .wrapped, 1)] := by
  refine ⟨unenclosed_enveloped, tidy_enveloped, ?_⟩
  obtain ⟨e, p, ran, -, -, -, -, -, -, -, law⟩ := log_accounts enveloped
  have agrees := (law unenclosed_enveloped tidy_enveloped).2
  have told : reported (p.log (.tree enveloped.kind)) =
      [("I", .flatIndexed, 1), ("E", .wrapped, 1)] := by
    obtain ⟨-, rfl⟩ := Prod.mk.inj (Except.ok.inj ((settles_node _ _ _).symm.trans ran))
    rw [Progress.reported_log, toList_events_start]
    rfl
  exact ⟨e, p, ran, told, told ▸ agrees⟩

end Gather
end PureEnum
