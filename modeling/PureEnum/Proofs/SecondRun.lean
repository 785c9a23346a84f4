import PureEnum.Proofs.Enclosure
import PureEnum.Proofs.Sharing

/-! The second run: what gathering finds in a tree that was gathered. Members moved into a new
function are found again, in the same number and order, since the function starts with their
literal. The function of a wrapper keeps its body, in which nothing is found. -/
namespace PureEnum

namespace Node

/-- There is no statement list in a tree when there is none in its root and in no subtree. -/
theorem bare_iff {n : Node} :
    n.scopes = [] ↔ n.statements? = none ∧ ∀ c ∈ n.children, c.scopes = [] := by
  rw [scopes_eq, List.append_eq_nil_iff, Option.toList_eq_nil_iff, List.flatMap_eq_nil_iff]

theorem bare_identifier (name : String) : (identifier name).scopes = [] :=
  bare_iff.mpr ⟨rfl, List.forall_mem_nil _⟩

end Node

namespace Gather

/-- What a visit finds in a node without statements, whatever its room. -/
theorem found_of_not_scope {n : Node} (own : n.statements? = none) (depth : Nat) :
    found depth n = n.children.flatMap (found (depth - 1)) := by
  cases depth with
  | zero => exact (List.flatMap_eq_nil_iff.mpr fun _ _ => rfl).symm
  | succ depth =>
    rw [found_succ, Node.handed_of_not_scope own, own]
    rfl

/-- Nothing is found where there is no statement list. -/
theorem found_of_bare {n : Node} (bare : n.scopes = []) (depth : Nat) : found depth n = [] := by
  induction depth generalizing n with
  | zero => rfl
  | succ depth ih =>
    obtain ⟨own, below⟩ := Node.bare_iff.mp bare
    rw [found_of_not_scope own]
    exact List.flatMap_eq_nil_iff.mpr fun c member => ih (below c member)

theorem flatMap_found_of_bare {nodes : List Node} (bare : ∀ c ∈ nodes, c.scopes = [])
    (depth : Nat) : nodes.flatMap (found depth) = [] :=
  List.flatMap_eq_nil_iff.mpr fun c member => found_of_bare (bare c member) depth

/-- A visit finds in a node what it finds in the only subtree that holds statement lists. -/
theorem found_of_only {depth : Nat} {n c : Node} (before behind : List Node)
    (reaches : Reaches depth n) (own : n.statements? = none)
    (children : n.children = before ++ c :: behind) (bare : ∀ b ∈ before ++ behind, b.scopes = []) :
    ∃ less, depth = less + 1 ∧ Reaches less c ∧ found depth n = found less c := by
  cases depth with
  | zero => exact reaches.elim
  | succ depth =>
    rw [Reaches, Node.handed_of_not_scope own, children] at reaches
    refine ⟨depth, rfl, reaches c (by simp), ?_⟩
    obtain ⟨first, last⟩ := List.forall_mem_append.mp bare
    rw [found_of_not_scope own, children, List.flatMap_append, List.flatMap_cons,
      flatMap_found_of_bare first, flatMap_found_of_bare last, List.nil_append, List.append_nil]
    rfl

/-- What is found in the statement built for an enum is found in its function. -/
theorem found_host {depth : Nat} {c : Candidate} {name : String} {function : Node}
    {arguments : List Node} (named : c.declaration.name = .identifier name)
    (bare : ∀ a ∈ arguments, a.scopes = [])
    (reaches : Reaches depth
      (c.host (.callExpression (.parenthesizedExpression function) arguments))) :
    ∃ less, Reaches less function ∧
      found depth (c.host (.callExpression (.parenthesizedExpression function) arguments)) =
        found less function := by
  obtain ⟨_, -, reaches, declared⟩ := found_of_only [.identifier name] []
    reaches rfl (by rw [Candidate.host, named]; rfl) (by simpa using Node.bare_identifier name)
  obtain ⟨_, -, reaches, marked⟩ := found_of_only [] []
    reaches rfl rfl (by simp)
  obtain ⟨_, -, reaches, inParens⟩ := found_of_only [] []
    reaches rfl rfl (by simp)
  obtain ⟨_, -, reaches, called⟩ := found_of_only [] arguments
    reaches rfl (Node.children_callExpression _ arguments) (by simpa using bare)
  obtain ⟨less, -, reaches, inside⟩ := found_of_only [] []
    reaches rfl rfl (by simp)
  exact ⟨less, reaches, by rw [declared, marked, inParens, called, inside]⟩

end Gather

namespace Segment

def again (f : Node → Node) : Segment → Segment
  | pinned s => pinned s
  | plain s => plain (f s)
  | enum _ c => plain (c.visited f).statement

@[simp] theorem candidates_again (f : Node → Node) (g : Segment) : (g.again f).candidates = [] := by
  cases g <;> rfl

end Segment

/-- A walked list is cut at every statement. -/
theorem Segmented.again {statements : List Node} {segments : List Segment}
    (cut : Segmented statements segments) (depth : Nat) :
    Segmented (segments.map (Segment.after (Gather.result depth)))
      (segments.map (Segment.again (Gather.result depth))) := by
  induction cut with
  | nil => exact .nil
  | pinned s imports _ ih => exact .pinned s imports ih
  | enum c _ _ ih =>
    exact .plain _ (c.visited _).isImport_statement (Candidate.find?_statement _ _) ih
  | plain s other none cut ih =>
    refine .plain _ ((Gather.isImport_result depth s).trans other) ?_ ih
    exact (Segmented.plain s other none cut).find?_after depth 0

namespace Gather

/-- What a visit finds in a scope, from how its list is cut. -/
theorem found_scope {statements : List Node} {segments : List Segment}
    (cut : Segmented statements segments) (head : ScopeHead Node) (depth : Nat) :
    found (depth + 1) (.scope head statements) = segments.flatMap Segment.candidates ++
      (head.children.flatMap (found depth) ++
        segments.flatMap fun g => g.parts.flatMap (found depth)) := by
  rw [found_succ, Node.statements?_scope, Option.toList_some, List.flatMap_singleton, cut.all,
    Node.handed, ← cut.eq_ofList, List.flatMap_append, List.flatMap_assoc]

/-- Segment by segment, with the enum of each beside what its parts hold. -/
theorem found_scope_perm {statements : List Node} {segments : List Segment}
    (cut : Segmented statements segments) (head : ScopeHead Node) (depth : Nat) :
    (found (depth + 1) (.scope head statements)).Perm (head.children.flatMap (found depth) ++
      segments.flatMap fun g => g.candidates ++ g.parts.flatMap (found depth)) := by
  rw [found_scope cut]
  apply (List.perm_append_comm_assoc ..).trans
  exact (List.flatMap_append_perm ..).append_left _

theorem reaches_scope {statements : List Node} {segments : List Segment}
    (cut : Segmented statements segments) (head : ScopeHead Node) (depth : Nat) :
    Reaches (depth + 1) (.scope head statements) ↔ (∀ c ∈ head.children, Reaches depth c) ∧
      ∀ g ∈ segments, ∀ c ∈ g.parts, Reaches depth c := by
  rw [Reaches, Node.handed, ← cut.eq_ofList, List.forall_mem_append, List.forall_mem_flatMap]

/-- What a visit finds in a function over a block, from how the block is cut. -/
theorem found_function {statements : List Node} {segments : List Segment}
    (cut : Segmented statements segments) {depth : Nat} {modifiers : Modifiers}
    {label : Option String} {parameters : List (Parameter Node)}
    (reaches : Reaches depth (.functionExpression modifiers label parameters (.block statements))) :
    ∃ less, depth = less + 2 ∧ (∀ c ∈ parameters.flatMap Parameter.children, Reaches (less + 1) c) ∧
      (∀ g ∈ segments, ∀ c ∈ g.parts, Reaches less c) ∧
      found depth (.functionExpression modifiers label parameters (.block statements)) =
        (parameters.flatMap Parameter.children).flatMap (found (less + 1)) ++
          (segments.flatMap Segment.candidates ++
            segments.flatMap fun g => g.parts.flatMap (found less)) := by
  obtain _ | depth := depth
  · exact reaches.elim
  have children := Node.children_functionExpression modifiers label parameters (.block statements)
  rw [Reaches, Node.handed_of_not_scope rfl, children, List.forall_mem_append,
    List.forall_mem_singleton] at reaches
  obtain ⟨inParameters, inBody⟩ := reaches
  obtain _ | less := depth
  · exact inBody.elim
  have body := (reaches_scope cut .block less).mp inBody
  refine ⟨less, rfl, inParameters, body.2, ?_⟩
  rw [found_succ, Node.handed_of_not_scope rfl, children, List.flatMap_append,
    List.flatMap_singleton, Node.block, found_scope cut]
  rfl

theorem bare_return (name : String) :
    (Node.returnStatement (some (.identifier name))).scopes = [] :=
  Node.bare_iff.mpr ⟨rfl, by simpa [Node.children, Node.layer, Layer.children, Row.children,
    Slot.children, Cell.children] using Node.bare_identifier name⟩

theorem segmented_return (name : String) :
    Segmented [.returnStatement (some (.identifier name))]
      [.plain (.returnStatement (some (.identifier name)))] :=
  .plain _ rfl rfl .nil

/-- A function built around members holds an enum again, and what the members hold. -/
theorem found_members {depth : Nat} {c : Candidate} {name : String} {properties members : List Node}
    (named : c.declaration.name = .identifier name) (run : Enum.isRun name properties members)
    (reaches : Reaches depth
      (c.host (Enum.membersCall name (some (.objectLiteralExpression properties)) members))) :
    ∃ less, (∀ s ∈ members, Reaches less s) ∧ found depth
        (c.host (Enum.membersCall name (some (.objectLiteralExpression properties)) members)) =
      Candidate.ofRun .empty .var name properties members :: members.flatMap (found less) := by
  obtain ⟨_, reaches, host⟩ := found_host named (List.forall_mem_nil _) reaches
  have fits : (Candidate.ofRun .empty .var name properties members).Fits members
      [.returnStatement (some (.identifier name))] := Candidate.fits_ofRun run rfl
  have cut := Segmented.enum _ fits (segmented_return name)
  obtain ⟨less, rfl, -, parts, body⟩ := found_function cut reaches
  refine ⟨less, fun s member => parts _ List.mem_cons_self s ?_, ?_⟩
  · rwa [Segment.parts, Candidate.parts_ofRun]
  · apply (host.trans body).trans
    simp [Segment.candidates, Segment.parts, found_of_bare (bare_return name)]

/-- What a visit finds in a function over a block that starts nothing. -/
theorem found_plain_function {statements : List Node} (idle : ∀ s ∈ statements, s.StartsNothing)
    {depth : Nat} {modifiers : Modifiers} {label : Option String} {parameter : Parameter Node}
    (reaches : Reaches depth
      (.functionExpression modifiers label [parameter] (.block statements))) :
    ∃ less, depth = less + 2 ∧ (∀ c ∈ parameter.children, Reaches (less + 1) c) ∧
      (∀ s ∈ statements, Reaches less s) ∧
      found depth (.functionExpression modifiers label [parameter] (.block statements)) =
        parameter.children.flatMap (found (less + 1)) ++ statements.flatMap (found less) := by
  obtain ⟨less, rfl, parameters, parts, body⟩ := found_function (segmented_plain idle) reaches
  refine ⟨less, rfl, ?_, fun s member => ?_, body.trans ?_⟩
  · simpa using parameters
  · exact parts (.plain s) (List.mem_map_of_mem member) s List.mem_cons_self
  · simp [List.flatMap_map, Segment.candidates, Segment.parts]

/-- What a visit finds in a wrapper call. -/
theorem found_wrapperCallOf {depth : Nat} {name : String} {modifiers : Modifiers}
    {label : Option String} {parameter : Parameter Node} {members arguments : List Node}
    (reverse : ∀ s ∈ members, Enum.setsReverse name s) (bare : ∀ a ∈ arguments, a.scopes = [])
    (reaches : Reaches depth
      (Enum.wrapperCallOf modifiers label parameter (.block members) arguments)) :
    ∃ less, depth = less + 4 ∧ (∀ c ∈ parameter.children, Reaches (less + 1) c) ∧
      (∀ s ∈ members, Reaches less s) ∧
      found depth (Enum.wrapperCallOf modifiers label parameter (.block members) arguments) =
        parameter.children.flatMap (found (less + 1)) ++ members.flatMap (found less) := by
  obtain ⟨_, rfl, reaches, called⟩ := found_of_only [] arguments reaches rfl
    (Node.children_callExpression _ arguments) (by simpa using bare)
  obtain ⟨_, rfl, reaches, inParens⟩ := found_of_only [] [] reaches rfl rfl (by simp)
  obtain ⟨less, rfl, parameters, statements, function⟩ := found_plain_function
    (fun s member => Enum.startsNothing_of_setsReverse (reverse s member)) reaches
  exact ⟨less, rfl, parameters, statements, by rw [called, inParens, function]⟩

/-- A wrapper function that returns its object holds what its parameter and members hold. -/
theorem found_returning {depth : Nat} {c : Candidate} {name : String} {modifiers : Modifiers}
    {label : Option String} {parameter : Parameter Node} {members : List Node}
    (named : c.declaration.name = .identifier name)
    (reverse : ∀ s ∈ members, Enum.setsReverse name s)
    (reaches : Reaches depth (c.host (Enum.wrapperCallOf modifiers label parameter
      (.block (members ++ [.returnStatement (some (.identifier name))])) [.emptyObject]))) :
    ∃ less, (∀ c ∈ parameter.children, Reaches (less + 1) c) ∧ (∀ s ∈ members, Reaches less s) ∧
      found depth (c.host (Enum.wrapperCallOf modifiers label parameter
        (.block (members ++ [.returnStatement (some (.identifier name))])) [.emptyObject])) =
        parameter.children.flatMap (found (less + 1)) ++ members.flatMap (found less) := by
  have bare : ∀ a ∈ [Node.emptyObject], a.scopes = [] := by
    simpa using Node.bare_iff.mpr ⟨rfl, List.forall_mem_nil _⟩
  obtain ⟨_, reaches, host⟩ := found_host named bare reaches
  have idle : ∀ s ∈ members ++ [.returnStatement (some (.identifier name))], s.StartsNothing :=
    List.forall_mem_append.mpr
      ⟨fun s member => Enum.startsNothing_of_setsReverse (reverse s member),
        List.forall_mem_singleton.mpr ⟨rfl, fun _ => rfl⟩⟩
  obtain ⟨less, rfl, parameters, statements, function⟩ := found_plain_function idle reaches
  refine ⟨less, parameters, fun s member => statements s (List.mem_append_left _ member), ?_⟩
  apply (host.trans function).trans
  simp [found_of_bare (bare_return name)]

end Gather

def reopens (outline : String × Shape × Nat) : Bool := outline.2.1 != .wrapped

/-- A wrapper call has a block for a body, and no argument of it holds a statement list. -/
def Candidate.Tidy (c : Candidate) : Prop := ∀ call, c.run = .wrapper call →
  ∃ modifiers label parameter statements arguments,
    call = Enum.wrapperCallOf modifiers label parameter (.block statements) arguments ∧
    ∀ a ∈ arguments, a.scopes = []

/-- What a tidy wrapper recognised as such consists of. -/
theorem Candidate.Tidy.call_eq {modifiers : Modifiers} {keyword : Keyword} {name : String}
    {s call : Node} (tidy : (Candidate.ofCall modifiers keyword name call).Tidy)
    (wrapped : Enum.wrapperCall? name s = some call) :
    ∃ functionModifiers label initializer members arguments,
      call = Enum.wrapperCallOf functionModifiers label ⟨.identifier name, initializer, false⟩
        (.block members) arguments ∧
      (∀ a ∈ arguments, a.scopes = []) ∧ ∀ s ∈ members, Enum.setsReverse name s := by
  obtain ⟨functionModifiers, label, parameter, members, arguments, rfl, bare⟩ := tidy call rfl
  obtain ⟨⟨initializer, rfl⟩, reverse⟩ := Enum.wrapperCall?_scope wrapped
  exact ⟨functionModifiers, label, initializer, members, arguments, rfl, bare, reverse⟩

namespace Gather

def outlines (depth : Nat) (n : Node) : List (String × Shape × Nat) :=
  (found depth n).map Candidate.outline

def Repeats (depth : Nat) : Prop := ∀ (later : Nat) (n : Node), Reaches depth n →
  Reaches later (result depth n) → (∀ c ∈ found depth n, c.Tidy) →
  (outlines later (result depth n)).Perm ((outlines depth n).filter reopens)

theorem Repeats.nodes {depth : Nat} (repeats : Repeats depth) (later : Nat) {nodes : List Node}
    (first : ∀ c ∈ nodes, Reaches depth c)
    (second : ∀ c ∈ nodes.map (result depth), Reaches later c)
    (tidy : ∀ c ∈ nodes.flatMap (found depth), c.Tidy) :
    (((nodes.map (result depth)).flatMap (found later)).map Candidate.outline).Perm
      (((nodes.flatMap (found depth)).map Candidate.outline).filter reopens) := by
  rw [List.flatMap_map, List.map_flatMap, List.map_flatMap, List.filter_flatMap]
  apply List.Perm.flatMap_left
  intro c member
  exact repeats later c (first c member) (second _ (List.mem_map_of_mem member)) fun found inside =>
    tidy found (List.mem_flatMap.mpr ⟨c, member, inside⟩)

/-- What is built for a wrapper that was visited with enough room. -/
theorem statement_call {less : Nat} (modifiers : Modifiers) (keyword : Keyword) {name : String}
    (functionModifiers : Modifiers) (label : Option String) (initializer : Option Node)
    {members : List Node} (arguments : List Node)
    (reverse : ∀ s ∈ members, Enum.setsReverse name s) :
    ((Candidate.ofCall modifiers keyword name (Enum.wrapperCallOf functionModifiers label
      ⟨.identifier name, initializer, false⟩ (.block members) arguments)).visited
        (result (less + 4))).statement =
    (Candidate.ofCall modifiers keyword name .emptyStatement).host (Enum.wrapperCallOf
      functionModifiers label ⟨.identifier name, initializer.map (result (less + 1)), false⟩
        (.block (members.map (result less) ++ [.returnStatement (some (.identifier name))]))
          [.emptyObject]) :=
  statement_visited_call (less + 4) _ _ _ _ _ _ reverse

/-- The members of a new function are found again, with their enum. -/
theorem repeats_run {depth : Nat} (repeats : Repeats depth) (later : Nat) {modifiers : Modifiers}
    {keyword : Keyword} {name : String} {properties members : List Node}
    (run : Enum.isRun name properties members) (first : ∀ s ∈ members, Reaches depth s)
    (second : Reaches later ((Candidate.ofRun modifiers keyword name properties members).visited
      (result depth)).statement)
    (tidy : ∀ c ∈ members.flatMap (found depth), c.Tidy) :
    ((found later ((Candidate.ofRun modifiers keyword name properties members).visited
      (result depth)).statement).map Candidate.outline).Perm
        (((Candidate.ofRun modifiers keyword name properties members ::
          members.flatMap (found depth)).map Candidate.outline).filter reopens) := by
  rw [Candidate.visited_ofRun, Candidate.statement_ofRun] at second ⊢
  have moved := (Enum.isRun_map_result properties depth members).trans run
  obtain ⟨room, reaches, inside⟩ := found_members rfl moved second
  have same : (Candidate.ofRun .empty .var name properties (members.map (result depth))).outline =
      (Candidate.ofRun modifiers keyword name properties members).outline := by
    rw [Candidate.outline_ofRun, Candidate.outline_ofRun, List.length_map]
  have opens : reopens (Candidate.ofRun modifiers keyword name properties members).outline :=
    bne_iff_ne.mpr (Candidate.shape_ofRun modifiers keyword name properties members)
  rw [inside, List.map_cons, same, List.map_cons, List.filter_cons_of_pos opens]
  exact .cons _ (repeats.nodes room first reaches tidy)

/-- The function of a wrapper is no enum again, but what it holds is found. -/
theorem repeats_call {depth : Nat} (repeats : ∀ less ≤ depth, Repeats less) (later : Nat)
    {modifiers : Modifiers} {keyword : Keyword} {name : String} {s call : Node}
    (wrapped : Enum.wrapperCall? name s = some call) (first : Reaches depth call)
    (second : Reaches later
      ((Candidate.ofCall modifiers keyword name call).visited (result depth)).statement)
    (tidy : ∀ c ∈ Candidate.ofCall modifiers keyword name call :: found depth call, c.Tidy) :
    ((found later ((Candidate.ofCall modifiers keyword name call).visited
      (result depth)).statement).map Candidate.outline).Perm
        (((Candidate.ofCall modifiers keyword name call :: found depth call).map
          Candidate.outline).filter reopens) := by
  obtain ⟨own, below⟩ := List.forall_mem_cons.mp tidy
  obtain ⟨functionModifiers, label, initializer, members, arguments, rfl, bare, reverse⟩ :=
    own.call_eq wrapped
  obtain ⟨less, rfl, parameters, statements, inside⟩ := found_wrapperCallOf reverse bare first
  have moved : ∀ s ∈ members.map (result less), Enum.setsReverse name s := by
    simpa [Enum.setsReverse_result] using reverse
  rw [statement_call _ _ _ _ _ _ reverse] at second ⊢
  obtain ⟨room, laterParameters, laterStatements, again⟩ := found_returning rfl moved second
  have closed : ¬ reopens (Candidate.ofCall modifiers keyword name (Enum.wrapperCallOf
      functionModifiers label ⟨.identifier name, initializer, false⟩ (.block members)
      arguments)).outline := Bool.false_ne_true
  have visited : Parameter.children ⟨.identifier name, initializer.map (result (less + 1)), false⟩ =
      (Parameter.children ⟨.identifier name, initializer, false⟩).map (result (less + 1)) :=
    Parameter.children_map (result (less + 1)) ⟨.identifier name, initializer, false⟩
  rw [visited] at laterParameters
  rw [inside] at below
  have inParameter := (repeats (less + 1) (by omega)).nodes (room + 1) parameters laterParameters
    fun c member => below c (List.mem_append_left _ member)
  have inMembers := (repeats less (by omega)).nodes room statements laterStatements
    fun c member => below c (List.mem_append_right _ member)
  rw [again, inside, visited, List.map_append, List.map_cons, List.map_append,
    List.filter_cons_of_neg closed, List.filter_append]
  exact inParameter.append inMembers

/-- What a walked segment holds is found again, and so is its enum unless it is a wrapper. -/
theorem repeats_segment {depth : Nat} (repeats : ∀ less ≤ depth, Repeats less) (later : Nat)
    {statements : List Node} {segments : List Segment} (cut : Segmented statements segments) :
    ∀ g ∈ segments, (∀ c ∈ g.parts, Reaches depth c) →
      (∀ c ∈ (g.again (result depth)).parts, Reaches later c) →
      (∀ c ∈ g.candidates ++ g.parts.flatMap (found depth), c.Tidy) →
      (((g.again (result depth)).parts.flatMap (found later)).map Candidate.outline).Perm
        (((g.candidates ++ g.parts.flatMap (found depth)).map
          Candidate.outline).filter reopens) := by
  induction cut with
  | nil => simp
  | pinned _ _ _ ih => exact List.forall_mem_cons.mpr ⟨fun _ _ _ => .nil, ih⟩
  | plain s _ _ _ ih =>
    refine List.forall_mem_cons.mpr ⟨fun first second tidy => ?_, ih⟩
    have single : ∀ c ∈ [s], Reaches depth c := first
    exact (repeats depth le_rfl).nodes later single second tidy
  | enum c fits _ ih =>
    refine List.forall_mem_cons.mpr ⟨fun first second tidy => ?_, ih⟩
    rcases fits.call_or_run with ⟨modifiers, keyword, name, s, call, rfl, -, wrapped⟩ |
      ⟨modifiers, keyword, name, properties, rfl, run⟩
    · simp only [Segment.parts, Segment.candidates, Segment.again, Candidate.parts_ofCall,
        List.forall_mem_singleton, List.flatMap_singleton, List.singleton_append]
        at first second tidy ⊢
      exact repeats_call repeats later wrapped first second tidy
    · simp only [Segment.parts, Segment.candidates, Segment.again, Candidate.parts_ofRun,
        List.forall_mem_singleton, List.flatMap_singleton, List.singleton_append]
        at first second tidy ⊢
      exact repeats_run (repeats depth le_rfl) later run first second
        (List.forall_mem_cons.mp tidy).2

theorem repeats_scope {depth : Nat} (repeats : ∀ less ≤ depth, Repeats less) (later : Nat)
    (head : ScopeHead Node) (statements : List Node)
    (first : Reaches (depth + 1) (.scope head statements))
    (second : Reaches (later + 1) (result (depth + 1) (.scope head statements)))
    (tidy : ∀ c ∈ found (depth + 1) (.scope head statements), c.Tidy) :
    (outlines (later + 1) (result (depth + 1) (.scope head statements))).Perm
      ((outlines (depth + 1) (.scope head statements)).filter reopens) := by
  have cut := Segment.segmented_ofList statements
  have again := cut.again depth
  have rebuilt : result (depth + 1) (.scope head statements) = .scope (head.map (result depth))
      ((Segment.ofList statements).map (Segment.after (result depth))) := rfl
  rw [rebuilt, reaches_scope again, ScopeHead.children_map] at second
  rw [reaches_scope cut] at first
  have whole := found_scope_perm cut head depth
  obtain ⟨inHead, inList⟩ := List.forall_mem_append.mp fun c inside =>
    tidy c (whole.symm.subset inside)
  apply List.Perm.trans _ ((whole.symm.map Candidate.outline).filter reopens)
  rw [rebuilt, outlines, found_scope again, ScopeHead.children_map]
  generalize Segment.ofList statements = segments at *
  have none : (segments.map (Segment.again (result depth))).flatMap Segment.candidates = [] := by
    simp
  have test := (repeats depth le_rfl).nodes later first.1 second.1 inHead
  have each : (((segments.map (Segment.again (result depth))).flatMap fun g =>
      g.parts.flatMap (found later)).map Candidate.outline).Perm
        (((segments.flatMap fun g => g.candidates ++ g.parts.flatMap (found depth)).map
          Candidate.outline).filter reopens) := by
    rw [List.flatMap_map, List.map_flatMap, List.map_flatMap, List.filter_flatMap]
    apply List.Perm.flatMap_left
    intro g member
    exact repeats_segment repeats later cut g member (first.2 g member)
      (second.2 _ (List.mem_map_of_mem member)) fun c inside =>
        inList c (List.mem_flatMap.mpr ⟨g, member, inside⟩)
  rw [none, List.nil_append, List.map_append, List.map_append, List.filter_append]
  exact test.append each

theorem repeats (depth : Nat) : Repeats depth := by
  induction depth using Nat.strong_induction_on with
  | _ depth ih =>
    intro later n first second tidy
    obtain _ | depth := depth
    · exact first.elim
    obtain _ | later := later
    · exact second.elim
    rcases n.scope_or with ⟨head, statements, rfl⟩ | own
    · exact repeats_scope (fun less below => ih less (Nat.lt_succ_of_le below)) later head
        statements first second tidy
    · have rebuilt : result (depth + 1) n = (n.layer.map (result depth)).node :=
        Node.rebuild_of_not_scope own
      have bare := Node.statements?_map (f := result depth) own
      have children := Node.children_map (result depth) n
      rw [rebuilt, Reaches, Node.handed_of_not_scope bare, children] at second
      rw [Reaches, Node.handed_of_not_scope own] at first
      rw [found_of_not_scope own] at tidy
      rw [rebuilt, outlines, outlines, found_of_not_scope bare, found_of_not_scope own, children]
      exact (ih depth (Nat.lt_succ_self depth)).nodes later first second tidy

end Gather

def Progress.AllWrapped (p : Progress) : Prop := ∀ name shape members statement,
  .enclosed name shape members statement ∈ p.events → shape = .wrapped

namespace Gather

theorem filter_reopens_eq_nil_iff (p : Progress) :
    (p.events.toList.filterMap Event.outline?).filter reopens = [] ↔ p.AllWrapped := by
  rw [List.filter_eq_nil_iff]
  constructor
  · intro none name shape members statement noted
    have outline : (name, shape, members) ∈ p.events.toList.filterMap Event.outline? :=
      List.mem_filterMap.mpr ⟨_, Array.mem_toList_iff.mpr noted, rfl⟩
    by_contra other
    exact none _ outline (bne_iff_ne.mpr other)
  · intro wrapped outline member opens
    obtain ⟨event, noted, told⟩ := List.mem_filterMap.mp member
    cases event with
    | limit => contradiction
    | enclosed name shape members statement =>
      obtain rfl := Option.some.inj told
      exact bne_iff_ne.mp opens (wrapped _ _ _ _ (Array.mem_toList_iff.mp noted))

/-- When neither run meets the limit and all wrappers found are tidy, the second run encloses
again exactly what was no wrapper. So it gives back what it was given, and counts nothing, exactly
when the first run enclosed wrappers only. -/
theorem second_run (t : Node) : ∃ e p e' q, t.gather.run .start = .ok (e, p) ∧
    (e.applyTo t).gather.run .start = .ok (e', q) ∧
    ((∀ event ∈ p.events, event.isEnclosed) → (∀ event ∈ q.events, event.isEnclosed) →
      (∀ c ∈ found maxTreeDepth t, c.Tidy) →
      (q.events.toList.filterMap Event.outline?).Perm
        ((p.events.toList.filterMap Event.outline?).filter reopens) ∧
      (e' = .kept ↔ p.AllWrapped) ∧ (q.enclosed = 0 ↔ p.AllWrapped)) := by
  refine ⟨_, _, _, _, settles_node maxTreeDepth t .start, settles_node maxTreeDepth _ .start,
    fun first second tidy => ?_⟩
  rw [applyTo_edit] at second ⊢
  have reaches : Reaches maxTreeDepth t := (reaches_iff _ _).mpr fun event noted =>
    first event ((mem_events_start _).mpr noted)
  have again : Reaches maxTreeDepth (result maxTreeDepth t) := (reaches_iff _ _).mpr
    fun event noted => second event ((mem_events_start _).mpr noted)
  have repeated : ((events maxTreeDepth (result maxTreeDepth t)).filterMap Event.outline?).Perm
      (((events maxTreeDepth t).filterMap Event.outline?).filter reopens) :=
    ((outlines_perm _ _).trans (repeats maxTreeDepth maxTreeDepth t reaches again tidy)).trans
      ((outlines_perm _ _).symm.filter _)
  have none : (Progress.start.record (events maxTreeDepth (result maxTreeDepth t))).enclosed = 0 ↔
      (Progress.start.record (events maxTreeDepth t)).AllWrapped := by
    rw [← filter_reopens_eq_nil_iff, toList_events_start, ← List.length_eq_zero_iff,
      ← repeated.length_eq, outlines_length, Progress.enclosed_record]
    simp [Progress.start]
  rw [toList_events_start, toList_events_start]
  refine ⟨repeated, ?_, none⟩
  rw [← none, edit_eq_kept_iff]
  exact (enclosed_record_eq_iff .start _).symm

def mixed : Node :=
  let setsReverse := .expressionStatement (.assign (.elementAccessExpression (.identifier "E")
    (.assign (.elementAccessExpression (.identifier "E") (.stringLiteral "A"))
      (.numericLiteral "0"))) (.stringLiteral "A"))
  let setsElement := .expressionStatement (.assign (.elementAccessExpression (.identifier "F")
    (.numericLiteral "0")) (.stringLiteral "B"))
  .file "mixed.js" [.declare "E" none,
    .expressionStatement (Enum.wrapperCallOf .empty none (.plain "E") (.block [setsReverse])
      [.identifier "E"]),
    .declare "F" (some .emptyObject), setsElement,
    .expressionStatement (.callExpression (.identifier "use") [.identifier "E", .identifier "F"])]

theorem tidy_mixed : ∀ c ∈ found maxTreeDepth mixed, c.Tidy := by
  have two : found maxTreeDepth mixed = [
      .ofCall .empty .var "E" (Enum.wrapperCallOf .empty none (.plain "E") (.block [_])
        [.identifier "E"]),
      .ofRun .empty .var "F" [] [_]] := rfl
  rw [two, List.forall_mem_cons, List.forall_mem_singleton]
  constructor
  · intro call same
    obtain rfl := Run.wrapper.inj same
    exact ⟨_, _, _, _, _, rfl, List.forall_mem_singleton.mpr
      (Node.bare_iff.mpr ⟨rfl, List.forall_mem_nil _⟩)⟩
  · intro call same
    contradiction

/-- The second run encloses the one enum that was no wrapper. -/
theorem second_run_mixed : ∃ e p e' q, mixed.gather.run .start = .ok (e, p) ∧
    (e.applyTo mixed).gather.run .start = .ok (e', q) ∧
    (q.events.toList.filterMap Event.outline?).Perm [("F", .flatIndexed, 1)] := by
  obtain ⟨e, p, e', q, first, second, law⟩ := second_run mixed
  refine ⟨e, p, e', q, first, second, ?_⟩
  obtain ⟨rfl, rfl⟩ := Prod.mk.inj (Except.ok.inj ((settles_node _ _ _).symm.trans first))
  rw [applyTo_edit] at second
  obtain ⟨-, rfl⟩ := Prod.mk.inj (Except.ok.inj ((settles_node _ _ _).symm.trans second))
  simp only [mem_events_start] at law
  have within : (events maxTreeDepth mixed).all Event.isEnclosed := by decide
  have again : (events maxTreeDepth (result maxTreeDepth mixed)).all Event.isEnclosed := by decide
  have repeated := (law (List.all_eq_true.mp within) (List.all_eq_true.mp again) tidy_mixed).1
  rw [toList_events_start (events maxTreeDepth mixed)] at repeated
  exact repeated

end Gather
end PureEnum
