import PureEnum.Proofs.Reach
import PureEnum.Proofs.Synthesis

/-! Enclosed statements: the form of what is built for an enum, and the statements that it stands
for. The form is read off a statement alone, so it may also stand in a tree that was never
gathered; a visit makes no statement enclosed that was not, apart from those it builds. -/
namespace PureEnum

/-- The statement `m k X = /*@__PURE__*/ ((function … (…) { … })(…));`. -/
structure Enclosure where
  modifiers : Modifiers
  keyword : Keyword
  name : String
  functionModifiers : Modifiers
  label : Option String
  parameters : List (Parameter Node)
  body : List Node
  arguments : List Node

def Node.enclosure? : Node → Option Enclosure
  | .variableStatement modifiers keyword [⟨.identifier name, some (.annotatedExpression comment
      (.parenthesizedExpression (.callExpression (.parenthesizedExpression (.functionExpression
        functionModifiers label parameters (.scope .block body))) arguments)))⟩] =>
    if comment = .pureMark then
      some ⟨modifiers, keyword, name, functionModifiers, label, parameters, body, arguments⟩
    else none
  | _ => none

namespace Enclosure

def statement (e : Enclosure) : Node :=
  .declareWith e.modifiers e.keyword e.name (some (.markPure (.parenthesizedExpression
    (.callExpression (.parenthesizedExpression (.functionExpression e.functionModifiers e.label
      e.parameters (.block e.body))) e.arguments))))

/-- The body in front of `return X;`. -/
def inside? (e : Enclosure) : Option (List Node) :=
  match e.body.getLast? with
  | some (.returnStatement (some result)) =>
    if result.isNamed e.name then some e.body.dropLast else none
  | _ => none

/-- Properties and members in `function () { var X = { … }; members; return X; }`. -/
def members? (e : Enclosure) : Option (List Node × List Node) :=
  match e.label, e.parameters, e.arguments, e.inside? with
  | none, [], [], some (.variableStatement modifiers .var
      [⟨declared, some (.objectLiteralExpression properties)⟩] :: members) =>
    if modifiers = .empty && e.functionModifiers = .empty && declared.isNamed e.name &&
        Enum.isRun e.name properties members then
      some (properties, members)
    else none
  | _, _, _, _ => none

/-- Parameter default and members in `function (X) { members; return X; }` over a fresh object. -/
def wrapped? (e : Enclosure) : Option (Option Node × List Node) :=
  match e.parameters, e.arguments, e.inside? with
  | [⟨name, initializer, false⟩], [.objectLiteralExpression []], some members =>
    if name.isNamed e.name && members.all (Enum.setsReverse e.name) then
      some (initializer, members)
    else none
  | _, _, _ => none

end Enclosure

theorem Node.enclosure?_eq_some {n : Node} {e : Enclosure} :
    n.enclosure? = some e ↔ n = e.statement := by
  constructor
  · intro found
    unfold enclosure? at found
    split at found
    case h_1 =>
      split at found
      case isTrue pure =>
        obtain rfl := Option.some.inj found
        rw [pure]
        rfl
      case isFalse => contradiction
    case h_2 => contradiction
  · rintro rfl
    rfl

namespace Enclosure

def ofRun (modifiers : Modifiers) (keyword : Keyword) (name : String)
    (properties members : List Node) : Enclosure where
  modifiers := modifiers
  keyword := keyword
  name := name
  functionModifiers := .empty
  label := none
  parameters := []
  body := .declare name (some (.objectLiteralExpression properties)) ::
    (members ++ [.returnStatement (some (.identifier name))])
  arguments := []

def ofCall (modifiers : Modifiers) (keyword : Keyword) (name : String)
    (functionModifiers : Modifiers) (label : Option String) (initializer : Option Node)
    (members : List Node) : Enclosure where
  modifiers := modifiers
  keyword := keyword
  name := name
  functionModifiers := functionModifiers
  label := label
  parameters := [⟨.identifier name, initializer, false⟩]
  body := members ++ [.returnStatement (some (.identifier name))]
  arguments := [.emptyObject]

theorem inside?_eq_some {e : Enclosure} {members : List Node} : e.inside? = some members ↔
    e.body = members ++ [.returnStatement (some (.identifier e.name))] := by
  constructor
  · intro found
    unfold inside? at found
    split at found
    case h_1 result last =>
      split at found
      case isTrue named =>
        obtain ⟨before, body⟩ := List.getLast?_eq_some_iff.mp last
        obtain rfl := Node.isNamed_iff.mp named
        rw [← Option.some.inj found, body, List.dropLast_concat]
      case isFalse => contradiction
    case h_2 => contradiction
  · intro body
    simp [inside?, body]

theorem members?_eq_some {e : Enclosure} {properties members : List Node} :
    e.members? = some (properties, members) ↔
      e = ofRun e.modifiers e.keyword e.name properties members ∧
        Enum.isRun e.name properties members := by
  constructor
  · intro found
    unfold members? at found
    split at found
    case h_1 label parameters arguments inside =>
      split at found
      case isTrue holds =>
        obtain ⟨rfl, rfl⟩ := Prod.mk.inj (Option.some.inj found)
        simp only [Bool.and_eq_true, decide_eq_true_eq, Node.isNamed_iff] at holds
        obtain ⟨⟨⟨rfl, functionModifiers⟩, rfl⟩, run⟩ := holds
        have body := inside?_eq_some.mp inside
        refine ⟨?_, run⟩
        obtain ⟨⟩ := e
        simp_all [ofRun, Node.declare, Node.declareWith]
      case isFalse => contradiction
    case h_2 => contradiction
  · rintro ⟨form, run⟩
    have inside : e.inside? =
        some (.declare e.name (some (.objectLiteralExpression properties)) :: members) := by
      rw [inside?_eq_some, form]
      rfl
    have parts : e.label = none ∧ e.parameters = [] ∧ e.arguments = [] ∧
        e.functionModifiers = .empty := by
      rw [form]
      exact ⟨rfl, rfl, rfl, rfl⟩
    simp [members?, inside, parts, run, Node.declare, Node.declareWith]

theorem wrapped?_eq_some {e : Enclosure} {initializer : Option Node} {members : List Node} :
    e.wrapped? = some (initializer, members) ↔
      e = ofCall e.modifiers e.keyword e.name e.functionModifiers e.label initializer members ∧
        ∀ s ∈ members, Enum.setsReverse e.name s := by
  constructor
  · intro found
    unfold wrapped? at found
    split at found
    case h_1 parameters arguments inside =>
      split at found
      case isTrue holds =>
        obtain ⟨rfl, rfl⟩ := Prod.mk.inj (Option.some.inj found)
        simp only [Bool.and_eq_true, Node.isNamed_iff, List.all_eq_true] at holds
        obtain ⟨rfl, reverse⟩ := holds
        have body := inside?_eq_some.mp inside
        refine ⟨?_, reverse⟩
        obtain ⟨⟩ := e
        simp_all [ofCall, Node.emptyObject]
      case isFalse => contradiction
    case h_2 => contradiction
  · rintro ⟨form, reverse⟩
    have inside : e.inside? = some members := by
      rw [inside?_eq_some, form]
      rfl
    have parts : e.parameters = [⟨.identifier e.name, initializer, false⟩] ∧
        e.arguments = [.objectLiteralExpression []] := by
      rw [form]
      exact ⟨rfl, rfl⟩
    simpa [wrapped?, inside, parts] using reverse

end Enclosure

/-- The call `(function (X) { members })(X || (X = {}))`. -/
def Enum.fillCall (name : String) (modifiers : Modifiers) (label : Option String)
    (initializer : Option Node) (members : List Node) : Node :=
  wrapperCallOf modifiers label ⟨.identifier name, initializer, false⟩ (.block members)
    [.either (.identifier name)
      (.parenthesizedExpression (.assign (.identifier name) .emptyObject))]

/-- The statements that an enclosed statement stands for. There are none for any other statement,
even if it has the form of one. -/
def Node.standsFor? (s : Node) : Option (List Node) := do
  let e ← s.enclosure?
  match e.members? with
  | some (properties, members) =>
    return .declareWith e.modifiers e.keyword e.name (some (.objectLiteralExpression properties)) ::
      members
  | none =>
    let (initializer, members) ← e.wrapped?
    return [.declareWith e.modifiers e.keyword e.name none, .expressionStatement
      (Enum.fillCall e.name e.functionModifiers e.label initializer members)]

theorem standsFor?_ofRun (modifiers : Modifiers) (keyword : Keyword) {name : String}
    {properties members : List Node} (run : Enum.isRun name properties members) :
    (Enclosure.ofRun modifiers keyword name properties members).statement.standsFor? =
      some ((Candidate.ofRun modifiers keyword name properties members).anchor :: members) := by
  have found : (Enclosure.ofRun modifiers keyword name properties members).members? =
      some (properties, members) := Enclosure.members?_eq_some.mpr ⟨rfl, run⟩
  simp only [Node.standsFor?, Node.enclosure?_eq_some.mpr rfl, Option.bind_eq_bind,
    Option.bind_some, found]
  rfl

theorem standsFor?_ofCall (modifiers : Modifiers) (keyword : Keyword) {name : String}
    (functionModifiers : Modifiers) (label : Option String) (initializer : Option Node)
    {members : List Node} (reverse : ∀ s ∈ members, Enum.setsReverse name s) :
    (Enclosure.ofCall modifiers keyword name functionModifiers label initializer
      members).statement.standsFor? =
        some [.declareWith modifiers keyword name none, .expressionStatement
          (Enum.fillCall name functionModifiers label initializer members)] := by
  have found : (Enclosure.ofCall modifiers keyword name functionModifiers label initializer
      members).wrapped? = some (initializer, members) :=
    Enclosure.wrapped?_eq_some.mpr ⟨rfl, reverse⟩
  have other : (Enclosure.ofCall modifiers keyword name functionModifiers label initializer
      members).members? = none := by
    cases label <;> rfl
  simp only [Node.standsFor?, Node.enclosure?_eq_some.mpr rfl, Option.bind_eq_bind,
    Option.bind_some, other, found]
  rfl

/-- Exactly two forms of a statement are enclosed. -/
theorem isSome_standsFor?_iff {s : Node} : s.standsFor?.isSome ↔
    (∃ modifiers keyword name properties members, Enum.isRun name properties members ∧
      s = (Enclosure.ofRun modifiers keyword name properties members).statement) ∨
    ∃ modifiers keyword name functionModifiers label initializer members,
      (∀ member ∈ members, Enum.setsReverse name member) ∧
      s = (Enclosure.ofCall modifiers keyword name functionModifiers label initializer
        members).statement := by
  constructor
  · intro stands
    obtain ⟨e, form, holds⟩ : ∃ e : Enclosure, s = e.statement ∧
        (e.members?.isSome ∨ e.wrapped?.isSome) := by
      unfold Node.standsFor? at stands
      cases found : s.enclosure? with
      | none => simp [found] at stands
      | some e =>
        refine ⟨e, Node.enclosure?_eq_some.mp found, ?_⟩
        cases members : e.members? with
        | some => exact .inl rfl
        | none =>
          simp only [found, members, Option.bind_eq_bind, Option.bind_some] at stands
          exact .inr (Option.isSome_of_isSome_bind stands)
    rcases holds with holds | holds
    · obtain ⟨⟨properties, members⟩, found⟩ := Option.isSome_iff_exists.mp holds
      obtain ⟨same, run⟩ := Enclosure.members?_eq_some.mp found
      exact .inl ⟨_, _, _, properties, members, run, form.trans (congrArg _ same)⟩
    · obtain ⟨⟨initializer, members⟩, found⟩ := Option.isSome_iff_exists.mp holds
      obtain ⟨same, reverse⟩ := Enclosure.wrapped?_eq_some.mp found
      exact .inr ⟨_, _, _, _, _, initializer, members, reverse, form.trans (congrArg _ same)⟩
  · rintro (⟨_, _, _, _, _, run, rfl⟩ | ⟨_, _, _, _, _, _, _, reverse, rfl⟩)
    · rw [standsFor?_ofRun _ _ run]
      rfl
    · rw [standsFor?_ofCall _ _ _ _ _ reverse]
      rfl

/-! A visit keeps the form of a node down to its statement lists, so the form of what a visit gives
is the form of the node. -/
namespace Gather

def relisted : (depth : Nat) → List Node → List Node
  | 0, statements => statements
  | depth + 1, statements => Segment.relist (result depth) statements

variable {depth : Nat} {n : Node}

theorem result_eq_declared {modifiers : Modifiers} {keyword : Keyword} {name value : Node}
    (same : result depth n = .variableStatement modifiers keyword [⟨name, some value⟩]) :
    ∃ before within, n = .variableStatement modifiers keyword [⟨before, some within⟩] ∧
      name = result (depth - 1) before ∧ value = result (depth - 1) within := by
  cases depth with
  | zero => exact ⟨name, value, same, rfl, rfl⟩
  | succ depth =>
    cases n with
    | variableStatement modifiers keyword declarations =>
      rcases declarations with _ | ⟨⟨before, _ | within⟩, _ | _⟩ <;> cases same
      exact ⟨before, within, rfl, rfl, rfl⟩
    | _ => cases same

theorem result_eq_identifier {name : String} (same : result depth n = .identifier name) :
    n = .identifier name := by
  rw [← Node.isNamed_iff, ← isNamed_result depth, Node.isNamed_iff, same]

theorem result_eq_annotated {comment : Comment} {inner : Node}
    (same : result depth n = .annotatedExpression comment inner) :
    ∃ within, n = .annotatedExpression comment within ∧ inner = result (depth - 1) within := by
  cases depth with
  | zero => exact ⟨inner, same, rfl⟩
  | succ depth =>
    cases n with
    | annotatedExpression _ within => cases same; exact ⟨within, rfl, rfl⟩
    | _ => cases same

theorem result_eq_parenthesized {inner : Node}
    (same : result depth n = .parenthesizedExpression inner) :
    ∃ within, n = .parenthesizedExpression within ∧ inner = result (depth - 1) within := by
  cases depth with
  | zero => exact ⟨inner, same, rfl⟩
  | succ depth =>
    cases n with
    | parenthesizedExpression within => cases same; exact ⟨within, rfl, rfl⟩
    | _ => cases same

theorem result_eq_call {callee : Node} {arguments : List Node}
    (same : result depth n = .callExpression callee arguments) :
    ∃ before given, n = .callExpression before given ∧ callee = result (depth - 1) before ∧
      arguments = given.map (result (depth - 1)) := by
  cases depth with
  | zero => exact ⟨callee, arguments, same, rfl, by simp [result_zero]⟩
  | succ depth =>
    cases n with
    | callExpression before given => cases same; exact ⟨before, given, rfl, rfl, rfl⟩
    | _ => cases same

theorem result_eq_function {modifiers : Modifiers} {label : Option String}
    {parameters : List (Parameter Node)} {body : Node}
    (same : result depth n = .functionExpression modifiers label parameters body) :
    ∃ named before, n = .functionExpression modifiers label named before ∧
      parameters = named.map (Parameter.map (result (depth - 1))) ∧
      body = result (depth - 1) before := by
  cases depth with
  | zero =>
    have unchanged : Parameter.map (id : Node → Node) = id := funext Parameter.map_id
    exact ⟨parameters, body, same, by simp [result_zero, unchanged], rfl⟩
  | succ depth =>
    cases n with
    | functionExpression _ _ named before => cases same; exact ⟨named, before, rfl, rfl, rfl⟩
    | _ => cases same

theorem result_eq_block {statements : List Node} (same : result depth n = .block statements) :
    ∃ before, n = .block before ∧ statements = relisted depth before := by
  cases depth with
  | zero => exact ⟨statements, same, rfl⟩
  | succ depth =>
    cases n with
    | scope head before =>
      cases head <;> cases same
      exact ⟨before, rfl, rfl⟩
    | _ => cases same

theorem result_eq_emptyObject (same : result depth n = .emptyObject) : n = .emptyObject := by
  cases depth with
  | zero => exact same
  | succ depth =>
    cases n with
    | objectLiteralExpression properties =>
      injection same with same
      rw [List.map_eq_nil_iff.mp same, Node.emptyObject]
    | _ => cases same

theorem result_eq_return {name : String}
    (same : result depth n = .returnStatement (some (.identifier name))) :
    n = .returnStatement (some (.identifier name)) := by
  cases depth with
  | zero => exact same
  | succ depth =>
    cases n with
    | returnStatement expression =>
      obtain _ | value := expression
      · cases same
      · injection same with same
        rw [result_eq_identifier (Option.some.inj same)]
    | _ => cases same

/-- What a visit gives has the form of an enclosure only if the node has it. -/
theorem result_eq_statement {e : Enclosure} (same : result depth n = e.statement) :
    ∃ (before : Enclosure) (room less : Nat), n = before.statement ∧ e = { before with
      parameters := before.parameters.map (Parameter.map (result room))
      body := relisted room before.body
      arguments := before.arguments.map (result less) } := by
  obtain ⟨modifiers, keyword, name, functionModifiers, label, _, _, _⟩ := e
  obtain ⟨_, _, rfl, declared, marked⟩ := result_eq_declared same
  obtain ⟨_, rfl, inParens⟩ := result_eq_annotated marked.symm
  obtain ⟨_, rfl, call⟩ := result_eq_parenthesized inParens.symm
  obtain ⟨_, arguments, rfl, callee, rfl⟩ := result_eq_call call.symm
  obtain ⟨_, rfl, function⟩ := result_eq_parenthesized callee.symm
  obtain ⟨parameters, _, rfl, rfl, block⟩ := result_eq_function function.symm
  obtain ⟨body, rfl, rfl⟩ := result_eq_block block.symm
  obtain rfl := result_eq_identifier declared.symm
  exact ⟨⟨modifiers, keyword, name, functionModifiers, label, parameters, body, arguments⟩, _, _,
    rfl, rfl⟩

theorem result_of_isImport (imports : n.isImport) : result depth n = n := by
  cases depth with
  | zero => rfl
  | succ depth =>
    cases n with
    | importDeclaration => rfl
    | _ => contradiction

end Gather

/-- Where there is no enum, every statement is visited where it stands. -/
theorem Segmented.map_after_of_none {statements : List Node} {segments : List Segment}
    (cut : Segmented statements segments) (none : ∀ g ∈ segments, g.candidates = []) (depth : Nat) :
    segments.map (Segment.after (Gather.result depth)) = statements.map (Gather.result depth) := by
  induction cut with
  | nil => rfl
  | pinned s imports _ ih =>
    rw [List.map_cons, List.map_cons, Gather.result_of_isImport imports,
      ih fun g member => none g (List.mem_cons_of_mem _ member)]
    rfl
  | enum => exact absurd (none _ List.mem_cons_self) (List.cons_ne_nil _ _)
  | plain s _ _ _ ih =>
    rw [List.map_cons, List.map_cons, ih fun g member => none g (List.mem_cons_of_mem _ member)]
    rfl

namespace Gather

variable {depth : Nat} {n : Node}

/-- A walked list of members and a return was one before. -/
theorem relisted_eq_members {name : String} {statements members : List Node}
    (reverse : ∀ s ∈ members, Enum.setsReverse name s)
    (same : relisted depth statements = members ++ [.returnStatement (some (.identifier name))]) :
    ∃ before, statements = before ++ [.returnStatement (some (.identifier name))] ∧
      ∀ s ∈ before, Enum.setsReverse name s := by
  obtain ⟨less, visited⟩ : ∃ less, statements.map (result less) =
      members ++ [.returnStatement (some (.identifier name))] := by
    cases depth with
    | zero =>
      refine ⟨0, ?_⟩
      rw [result_zero, List.map_id]
      exact same
    | succ depth =>
      have cut := Segment.segmented_ofList statements
      refine ⟨depth, (cut.map_after_of_none (fun g member => ?_) depth).symm.trans same⟩
      have stands : g.after (result depth) ∈
          members ++ [.returnStatement (some (.identifier name))] := by
        rw [← same]
        exact List.mem_map_of_mem member
      cases g with
      | pinned => rfl
      | plain => rfl
      | enum anchor c =>
        -- what an enum becomes is neither a member nor a return
        rcases List.mem_append.mp stands with inside | last
        · have := reverse _ inside
          rw [Segment.after, Enum.setsReverse_statement] at this
          contradiction
        · rw [List.mem_singleton, Segment.after] at last
          rcases (c.visited (result depth)).statement_cases with other | ⟨_, other⟩
          · rw [other] at last
            contradiction
          · rw [other] at last
            contradiction
  obtain ⟨before, behind, rfl, moved, last⟩ := List.map_eq_append_iff.mp visited
  obtain ⟨final, rfl, returned⟩ := List.map_eq_singleton_iff.mp last
  refine ⟨before, by rw [result_eq_return returned], fun s member => ?_⟩
  rw [← Enum.setsReverse_result name less]
  exact reverse _ (moved ▸ List.mem_map_of_mem member)

/-- A visit makes no statement enclosed that was not. -/
theorem isSome_standsFor?_result (enclosed : (result depth n).standsFor?.isSome) :
    n.standsFor?.isSome := by
  rw [isSome_standsFor?_iff]
  rcases isSome_standsFor?_iff.mp enclosed with
    ⟨modifiers, keyword, name, properties, members, run, same⟩ |
    ⟨modifiers, keyword, name, functionModifiers, label, initializer, members, reverse, same⟩
  · obtain ⟨⟨_, _, _, _, _, _, body, _⟩, room, less, rfl, form⟩ := result_eq_statement same
    simp only [Enclosure.ofRun, Enclosure.mk.injEq, List.nil_eq, List.map_eq_nil_iff] at form
    obtain ⟨rfl, rfl, rfl, rfl, rfl, rfl, walked, rfl⟩ := form
    refine .inl ⟨modifiers, keyword, name, properties, members, run, ?_⟩
    cases room with
    | zero =>
      rw [relisted] at walked
      rw [← walked]
      rfl
    | succ room =>
      have none := at?_relist room body 0
      have found : Candidate.find? (.declare name (some (.objectLiteralExpression properties)) ::
          (members ++ [.returnStatement (some (.identifier name))])) =
          some (Candidate.ofRun .empty .var name properties members) :=
        Candidate.find?_eq_some.mpr ⟨members, _, rfl, Candidate.fits_ofRun run rfl⟩
      rw [walked] at found
      exact absurd (none.symm.trans found) (Option.some_ne_none _).symm
  · obtain ⟨⟨⟩, room, less, rfl, form⟩ := result_eq_statement same
    simp only [Enclosure.ofCall, Enclosure.mk.injEq] at form
    obtain ⟨rfl, rfl, rfl, rfl, rfl, parameters, walked, arguments⟩ := form
    obtain ⟨⟨declared, initial, rest⟩, rfl, parameter⟩ :=
      List.map_eq_singleton_iff.mp parameters.symm
    obtain ⟨argument, rfl, object⟩ := List.map_eq_singleton_iff.mp arguments.symm
    obtain ⟨before, rfl, kept⟩ := relisted_eq_members reverse walked.symm
    simp only [Parameter.map, Parameter.mk.injEq] at parameter
    obtain ⟨named, -, rfl⟩ := parameter
    obtain rfl := result_eq_identifier named
    obtain rfl := result_eq_emptyObject object
    exact .inr ⟨modifiers, keyword, name, functionModifiers, label, initial, before, kept, rfl⟩

/-- What is built for members that were visited. -/
theorem statement_visited_run (depth : Nat) (modifiers : Modifiers) (keyword : Keyword)
    (name : String) (properties members : List Node) :
    ((Candidate.ofRun modifiers keyword name properties members).visited
      (result depth)).statement = (Enclosure.ofRun modifiers keyword name properties
        (members.map (result depth))).statement := by
  rw [Candidate.visited_ofRun, Candidate.statement_ofRun]
  rfl

/-- What is built for a wrapper that was visited, whatever its arguments. -/
theorem statement_visited_call (depth : Nat) (modifiers : Modifiers) (keyword : Keyword)
    {name : String} (functionModifiers : Modifiers) (label : Option String)
    (initializer : Option Node) {members : List Node} (arguments : List Node)
    (reverse : ∀ s ∈ members, Enum.setsReverse name s) :
    ((Candidate.ofCall modifiers keyword name (Enum.wrapperCallOf functionModifiers label
      ⟨.identifier name, initializer, false⟩ (.block members) arguments)).visited
        (result depth)).statement = (Enclosure.ofCall modifiers keyword name functionModifiers label
          (initializer.map (result (depth - 1 - 1 - 1)))
          (members.map (result (depth - 1 - 1 - 1 - 1)))).statement := by
  rw [Candidate.visited_ofCall, Enum.result_wrapperCallOf, Enum.result_block reverse,
    Candidate.statement_ofCall, Parameter.map, result_identifier]
  rfl

end Gather
end PureEnum
