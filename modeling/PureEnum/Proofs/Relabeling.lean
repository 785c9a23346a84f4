import Mathlib.Data.Set.Function
import PureEnum.Proofs.Sharing
import PureEnum.Proofs.Subtrees
import PureEnum.Proofs.Success

/-! Relabelings: other names for identifiers, and other contents for numbers, strings, raw text and
member names. Gathering compares identifiers with each other and with nothing else, so it
commutes with every relabeling that keeps the identifiers of the tree apart. -/
namespace PureEnum

/-- One map for each sort of text that is relabeled. Texts that are not nodes, the names of members
apart, stay as they are. -/
structure Relabeling where
  identifier : String → String
  number : String → String
  string : String → String
  member : String → String
  raw : String → String

def Relabeling.own (σ : Relabeling) : Node → Node
  | .identifier text => .identifier (σ.identifier text)
  | .numericLiteral text => .numericLiteral (σ.number text)
  | .stringLiteral text => .stringLiteral (σ.string text)
  | .propertyAccessExpression owner member => .propertyAccessExpression owner (σ.member member)
  | .raw text => .raw (σ.raw text)
  | n => n

def Node.relabel (σ : Relabeling) (n : Node) : Node := n.recurse fun _ inside => σ.own inside.node

variable {σ : Relabeling}

namespace Node

theorem relabel_eq (σ : Relabeling) (n : Node) :
    n.relabel σ = σ.own (n.layer.map (relabel σ)).node := recurse_eq ..

@[simp] theorem relabel_scope (head : ScopeHead Node) (statements : List Node) :
    (Node.scope head statements).relabel σ =
      .scope (head.map (relabel σ)) (statements.map (relabel σ)) := by
  rw [relabel_eq]
  cases head <;> rfl

@[simp] theorem relabel_identifier (name : String) :
    (Node.identifier name).relabel σ = .identifier (σ.identifier name) := relabel_eq ..

@[simp] theorem relabel_variableStatement (modifiers : Modifiers) (keyword : Keyword)
    (declarations : List (Declaration Node)) :
    (Node.variableStatement modifiers keyword declarations).relabel σ =
      .variableStatement modifiers keyword (declarations.map (Declaration.map (relabel σ))) :=
  relabel_eq ..

@[simp] theorem relabel_returnStatement (value : Option Node) :
    (Node.returnStatement value).relabel σ = .returnStatement (value.map (relabel σ)) :=
  relabel_eq ..

@[simp] theorem relabel_emptyStatement : Node.emptyStatement.relabel σ = .emptyStatement :=
  relabel_eq ..

@[simp] theorem relabel_objectLiteral (properties : List Node) :
    (Node.objectLiteralExpression properties).relabel σ =
      .objectLiteralExpression (properties.map (relabel σ)) := relabel_eq ..

@[simp] theorem relabel_call (callee : Node) (arguments : List Node) :
    (Node.callExpression callee arguments).relabel σ =
      .callExpression (callee.relabel σ) (arguments.map (relabel σ)) := relabel_eq ..

@[simp] theorem relabel_parenthesized (inner : Node) :
    (Node.parenthesizedExpression inner).relabel σ = .parenthesizedExpression (inner.relabel σ) :=
  relabel_eq ..

@[simp] theorem relabel_function (modifiers : Modifiers) (label : Option String)
    (parameters : List (Parameter Node)) (body : Node) :
    (Node.functionExpression modifiers label parameters body).relabel σ =
      .functionExpression modifiers label (parameters.map (Parameter.map (relabel σ)))
        (body.relabel σ) := relabel_eq ..

@[simp] theorem relabel_annotated (comment : Comment) (inner : Node) :
    (Node.annotatedExpression comment inner).relabel σ =
      .annotatedExpression comment (inner.relabel σ) := relabel_eq ..

/-! What a node says about itself is relabeled and not otherwise changed. -/

theorem children_own (σ : Relabeling) (n : Node) : (σ.own n).children = n.children := by
  cases n <;> rfl

@[simp] theorem children_relabel (n : Node) :
    (n.relabel σ).children = n.children.map (relabel σ) := by
  rw [relabel_eq, children_own, children_map]

theorem rebuild_own {f : Node → Node} {n : Node} (own : n.statements? = none) :
    (σ.own n).rebuild f = σ.own (n.layer.map f).node := by
  cases n with
  | scope => simp at own
  | _ => rfl

@[simp] theorem kind_relabel (n : Node) : (n.relabel σ).kind = n.kind := by
  have own : ∀ m, (σ.own m).kind = m.kind := fun m => by cases m <;> rfl
  rw [relabel_eq, own, Layer.kind_node, ← kind_layer]
  rfl

@[simp] theorem statements?_relabel (n : Node) :
    (n.relabel σ).statements? = n.statements?.map (List.map (relabel σ)) := by
  cases n with
  | scope => simp [relabel_scope]
  | _ => rw [relabel_eq]; rfl

@[simp] theorem identifier?_relabel (n : Node) :
    (n.relabel σ).identifier? = n.identifier?.map σ.identifier := by
  cases n with
  | scope => rw [relabel_scope]; rfl
  | _ => rw [relabel_eq]; rfl

@[simp] theorem evaluated?_relabel (n : Node) :
    (n.relabel σ).evaluated? = n.evaluated?.map (relabel σ) := by
  cases n with
  | scope => rw [relabel_scope]; rfl
  | _ => rw [relabel_eq]; rfl

theorem assignment?_relabel (n : Node) :
    (n.relabel σ).assignment? = n.assignment?.map (Prod.map (relabel σ) (relabel σ)) := by
  cases n with
  | scope => rw [relabel_scope]; rfl
  | binaryExpression left operator right =>
    rw [relabel_eq]
    change (Node.binaryExpression (left.relabel σ) operator (right.relabel σ)).assignment? = _
    by_cases plain : operator = "="
    · rw [plain]; rfl
    · simp [assignment?, plain]
  | _ => rw [relabel_eq]; rfl

@[simp] theorem properties?_relabel (n : Node) :
    (n.relabel σ).properties? = n.properties?.map (List.map (relabel σ)) := by
  cases n with
  | scope => rw [relabel_scope]; rfl
  | _ => rw [relabel_eq]; rfl

@[simp] theorem isImport_relabel (n : Node) : (n.relabel σ).isImport = n.isImport := by
  cases n with
  | scope => rw [relabel_scope]; rfl
  | _ => rw [relabel_eq]; rfl

theorem skipParens_relabel (n : Node) :
    (n.relabel σ).skipParens = n.skipParens.relabel σ := by
  induction n using skipParens.induct with
  | case1 inner ih => simp only [relabel_parenthesized, skipParens, ih]
  | case2 n other =>
    have same : n.skipParens = n := by
      rw [skipParens]
      exact other
    rw [same]
    cases n with
    | parenthesizedExpression inner => exact absurd rfl (other inner)
    | scope => rw [relabel_scope]; rfl
    | _ => rw [relabel_eq]; rfl

end Node

def Node.NamedIn (names : Set String) (n : Node) : Prop :=
  ∀ name, .identifier name ∈ n.subtrees → name ∈ names

namespace Node.NamedIn

variable {names : Set String} {n m : Node}

theorem subtree (named : n.NamedIn names) (below : m ∈ n.subtrees) : m.NamedIn names :=
  fun name member => named name (mem_subtrees_trans below member)

theorem child (named : n.NamedIn names) (below : m ∈ n.children) : m.NamedIn names :=
  named.subtree (child_mem_subtrees below)

theorem skipParens (named : n.NamedIn names) : n.skipParens.NamedIn names :=
  named.subtree n.skipParens_mem_subtrees

theorem identifier {name : String} (named : (Node.identifier name).NamedIn names) : name ∈ names :=
  named name (self_mem_subtrees _)

end Node.NamedIn

theorem takeWhile_map_of_agree {α β : Type} {f : α → β} {p : α → Bool} {q : β → Bool}
    {xs : List α} (agree : ∀ x ∈ xs, q (f x) = p x) :
    (xs.map f).takeWhile q = (xs.takeWhile p).map f := by
  induction xs with
  | nil => rfl
  | cons x xs ih =>
    obtain ⟨first, rest⟩ := List.forall_mem_cons.mp agree
    rw [List.map_cons, List.takeWhile_cons, List.takeWhile_cons, first, ih rest]
    split <;> rfl

theorem dropWhile_map_of_agree {α β : Type} {f : α → β} {p : α → Bool} {q : β → Bool}
    {xs : List α} (agree : ∀ x ∈ xs, q (f x) = p x) :
    (xs.map f).dropWhile q = (xs.dropWhile p).map f := by
  induction xs with
  | nil => rfl
  | cons x xs ih =>
    obtain ⟨first, rest⟩ := List.forall_mem_cons.mp agree
    rw [List.map_cons, List.dropWhile_cons, List.dropWhile_cons, first, ih rest]
    split <;> rfl

/-! Recognition, where all identifiers in sight are among names that the relabeling keeps apart. -/
namespace Enum

variable {names : Set String} (apart : Set.InjOn σ.identifier names) {owner : String}
  (known : owner ∈ names)

include apart known

theorem isNamed_relabel {n : Node} (named : n.NamedIn names) :
    (n.relabel σ).isNamed (σ.identifier owner) = n.isNamed owner := by
  rw [Node.isNamed, Node.identifier?_relabel, Node.isNamed]
  cases found : n.identifier? with
  | none => rfl
  | some name =>
    obtain rfl : n = .identifier name := by
      cases n <;> simp_all [Node.identifier?]
    simp [apart.eq_iff named.identifier known]

theorem keyOf?_relabel {n : Node} (named : n.NamedIn names) :
    keyOf? (σ.identifier owner) (n.relabel σ) = (keyOf? owner n).map (Node.relabel σ) := by
  cases n with
  | elementAccessExpression object key =>
    have same := isNamed_relabel apart known (named.child (m := object) List.mem_cons_self)
    rw [Node.relabel_eq]
    change keyOf? _ (.elementAccessExpression (object.relabel σ) (key.relabel σ)) = _
    rw [keyOf?, keyOf?, same]
    split <;> rfl
  | scope => rw [Node.relabel_scope]; rfl
  | _ => rw [Node.relabel_eq]; rfl

theorem isPropertyOf_relabel {n : Node} (named : n.NamedIn names) :
    isPropertyOf (σ.identifier owner) (n.relabel σ) = isPropertyOf owner n := by
  cases n with
  | propertyAccessExpression object member =>
    have same := isNamed_relabel apart known (named.child (m := object) List.mem_cons_self)
    rw [Node.relabel_eq]
    exact same
  | scope => rw [Node.relabel_scope]; rfl
  | _ => rw [Node.relabel_eq]; rfl

omit apart known in
theorem target?_relabel (s : Node) :
    target? (s.relabel σ) = (target? s).map (Node.relabel σ) := by
  simp only [target?_eq, Node.evaluated?_relabel]
  cases s.evaluated? with
  | none => rfl
  | some e => cases h : e.assignment? <;> simp [Node.assignment?_relabel, h]

omit apart known in
theorem namedIn_target {s target : Node} (named : s.NamedIn names)
    (found : target? s = some target) : target.NamedIn names := by
  obtain ⟨value, rfl⟩ := target?_eq_some.mp found
  exact (named.child List.mem_cons_self).child List.mem_cons_self

omit apart known in
theorem namedIn_key {n key : Node} (named : n.NamedIn names) (found : keyOf? owner n = some key) :
    key.NamedIn names := by
  obtain rfl := keyOf?_eq_some.mp found
  exact named.child (List.mem_cons_of_mem _ List.mem_cons_self)

theorem setsProperty_relabel {s : Node} (named : s.NamedIn names) :
    setsProperty (σ.identifier owner) (s.relabel σ) = setsProperty owner s := by
  rw [setsProperty, target?_relabel, setsProperty]
  cases found : target? s with
  | none => rfl
  | some target => exact isPropertyOf_relabel apart known (namedIn_target named found)

theorem setsElement_relabel {s : Node} (named : s.NamedIn names) :
    setsElement (σ.identifier owner) (s.relabel σ) = setsElement owner s := by
  rw [setsElement, target?_relabel, setsElement]
  cases found : target? s with
  | none => rfl
  | some target => simp [keyOf?_relabel apart known (namedIn_target named found)]

theorem setsNameLookup_relabel {s : Node} (named : s.NamedIn names) :
    setsNameLookup (σ.identifier owner) (s.relabel σ) = setsNameLookup owner s := by
  rw [setsNameLookup, target?_relabel, setsNameLookup]
  cases found : target? s with
  | none => rfl
  | some target =>
    have inTarget := namedIn_target named found
    have keys := keyOf?_relabel apart known inTarget
    cases looked : keyOf? owner target with
    | none => simp [keys, looked]
    | some key =>
      simpa [keys, looked] using isPropertyOf_relabel apart known (namedIn_key inTarget looked)

theorem setsReverse_relabel {s : Node} (named : s.NamedIn names) :
    setsReverse (σ.identifier owner) (s.relabel σ) = setsReverse owner s := by
  rw [setsReverse, target?_relabel, setsReverse]
  cases found : target? s with
  | none => rfl
  | some target =>
    have inTarget := namedIn_target named found
    have keys := keyOf?_relabel apart known inTarget
    cases looked : keyOf? owner target with
    | none => simp [keys, looked]
    | some key =>
      cases assigned : key.assignment? with
      | none => simp [keys, looked, assigned, Node.assignment?_relabel]
      | some pair =>
        obtain ⟨inner, value⟩ := pair
        obtain rfl := Node.assignment?_eq_some.mp assigned
        have inKey := (namedIn_key inTarget looked).child (m := inner) List.mem_cons_self
        simp [keys, looked, assigned, Node.assignment?_relabel, keyOf?_relabel apart known inKey]

omit apart known in
theorem callee?_relabel (n : Node) :
    callee? (n.relabel σ) = (callee? n).map (Node.relabel σ) := by
  cases n with
  | scope => rw [Node.relabel_scope]; rfl
  | _ => rw [Node.relabel_eq]; rfl

omit apart known in
theorem inParens?_relabel (n : Node) :
    inParens? (n.relabel σ) = (inParens? n).map (Node.relabel σ) := by
  cases n with
  | scope => rw [Node.relabel_scope]; rfl
  | _ => rw [Node.relabel_eq]; rfl

omit apart known in
theorem function?_relabel (n : Node) : function? (n.relabel σ) =
    (function? n).map (Prod.map (List.map (Parameter.map (Node.relabel σ))) (Node.relabel σ)) := by
  cases n with
  | scope => rw [Node.relabel_scope]; rfl
  | _ => rw [Node.relabel_eq]; rfl

omit apart known in
/-- What is called is one level further down each time. -/
theorem namedIn_function {call body : Node} {parameters : List (Parameter Node)}
    (named : call.NamedIn names)
    (found : ((callee? call).bind inParens?).bind function? = some (parameters, body)) :
    (∀ p ∈ parameters, p.name.NamedIn names) ∧ body.NamedIn names := by
  obtain ⟨inner, parens, function⟩ := Option.bind_eq_some_iff.mp found
  obtain ⟨callee, called, inParens⟩ := Option.bind_eq_some_iff.mp parens
  obtain ⟨arguments, rfl⟩ : ∃ arguments, call = .callExpression callee arguments := by
    cases call <;> simp_all [callee?]
  obtain rfl : callee = .parenthesizedExpression inner := by
    cases callee <;> simp_all [inParens?]
  obtain ⟨modifiers, label, rfl⟩ : ∃ modifiers label,
      inner = .functionExpression modifiers label parameters body := by
    cases inner <;> simp_all [function?]
  have inFunction : (Node.functionExpression modifiers label parameters body).NamedIn names :=
    (named.child (Node.children_callExpression _ _ ▸ List.mem_cons_self)).child List.mem_cons_self
  have children := Node.children_functionExpression modifiers label parameters body
  refine ⟨fun p member => inFunction.child ?_, inFunction.child ?_⟩
  · rw [children]
    exact List.mem_append_left _ (List.mem_flatMap.mpr ⟨p, member, List.mem_cons_self⟩)
  · rw [children]
    exact List.mem_append_right _ List.mem_cons_self

theorem fills_relabel {call : Node} (named : call.NamedIn names) :
    fills (σ.identifier owner) (call.relabel σ) = fills owner call := by
  have inside : ((callee? (call.relabel σ)).bind inParens?).bind function? =
      (((callee? call).bind inParens?).bind function?).map
        (Prod.map (List.map (Parameter.map (Node.relabel σ))) (Node.relabel σ)) := by
    rw [callee?_relabel]
    cases callee? call with
    | none => rfl
    | some callee =>
      simp only [Option.map_some, Option.bind_some, inParens?_relabel]
      cases inParens? callee with
      | none => rfl
      | some inner => simp [function?_relabel]
  unfold fills
  rw [inside]
  rcases found : ((callee? call).bind inParens?).bind function? with
    _ | ⟨_ | ⟨parameter, _ | ⟨other, others⟩⟩, body⟩
  · rfl
  · rfl
  · obtain ⟨inParameters, inBody⟩ := namedIn_function named found
    have parameter := isNamed_relabel apart known (inParameters parameter List.mem_cons_self)
    have members :
        (body.relabel σ).statements?.any (List.all · (setsReverse (σ.identifier owner))) =
          body.statements?.any (List.all · (setsReverse owner)) := by
      rw [Node.statements?_relabel]
      cases scope : body.statements? with
      | none => rfl
      | some statements =>
        obtain ⟨head, rfl⟩ := Node.statements?_eq_some.mp scope
        have each : ∀ s ∈ statements,
            setsReverse (σ.identifier owner) (s.relabel σ) = setsReverse owner s :=
          fun s member => setsReverse_relabel apart known (inBody.child
            (Node.children_scope head statements ▸ List.mem_append_right _ member))
        have all : (statements.map (Node.relabel σ)).all (setsReverse (σ.identifier owner)) =
            statements.all (setsReverse owner) := by
          rw [List.all_map, Bool.eq_iff_iff, List.all_eq_true, List.all_eq_true]
          exact forall₂_congr fun s member => by rw [Function.comp_apply, each s member]
        exact all
    simp only [Option.map_some, Prod.map, List.map_cons, List.map_nil, Parameter.map, parameter,
      members]
  · rfl

omit apart known in
/-- A wrapper call is the evaluated call itself, if that fills the object. -/
theorem wrapperCall?_eq_filter (name : String) (s : Node) :
    wrapperCall? name s = (s.evaluated?.map Node.skipParens).filter (fills name) := by
  have holds := isSome_wrapperCall? name s
  cases found : wrapperCall? name s with
  | none =>
    rw [found, Option.isSome_none] at holds
    cases evaluated : s.evaluated? with
    | none => rfl
    | some e =>
      rw [evaluated, Option.any_some] at holds
      rw [Option.map_some, Option.filter_some, ← holds]
      rfl
  | some call =>
    obtain ⟨e, _, _, _, _, _, _, rfl, rfl, -, -⟩ := wrapperCall?_eq_some.mp found
    rw [found, Option.isSome_some] at holds
    have filled : fills name e.skipParens := holds.symm
    rw [Node.evaluated?, Option.map_some, Option.filter_some, filled]
    rfl

theorem wrapperCall?_relabel {s : Node} (named : s.NamedIn names) :
    wrapperCall? (σ.identifier owner) (s.relabel σ) =
      (wrapperCall? owner s).map (Node.relabel σ) := by
  rw [wrapperCall?_eq_filter, wrapperCall?_eq_filter, Node.evaluated?_relabel]
  cases evaluated : s.evaluated? with
  | none => rfl
  | some e =>
    obtain rfl := evaluated?_eq_some.mp evaluated
    have same := fills_relabel apart known (named.child (m := e) List.mem_cons_self).skipParens
    simp only [Option.map_some, Node.skipParens_relabel, Option.filter_some, same]
    split <;> rfl

theorem flatMembers_relabel {statements : List Node}
    (named : ∀ s ∈ statements, s.NamedIn names) :
    flatMembers (σ.identifier owner) (statements.map (Node.relabel σ)) =
      (flatMembers owner statements).map (Node.relabel σ) := by
  have property : ∀ s ∈ statements,
      setsProperty (σ.identifier owner) (s.relabel σ) = setsProperty owner s :=
    fun s member => setsProperty_relabel apart known (named s member)
  have element : ∀ s ∈ statements.dropWhile (setsProperty owner),
      setsElement (σ.identifier owner) (s.relabel σ) = setsElement owner s :=
    fun s member => setsElement_relabel apart known
      (named s ((List.dropWhile_suffix _).subset member))
  simp only [flatMembers_eq, takeWhile_map_of_agree property, dropWhile_map_of_agree property,
    takeWhile_map_of_agree element, List.isEmpty_map]
  split <;> simp

theorem fixedMembers_relabel {statements : List Node}
    (named : ∀ s ∈ statements, s.NamedIn names) :
    fixedMembers (σ.identifier owner) (statements.map (Node.relabel σ)) =
      (fixedMembers owner statements).map (Node.relabel σ) :=
  takeWhile_map_of_agree fun s member => setsNameLookup_relabel apart known (named s member)

end Enum

namespace Run

theorem find?_relabel {names : Set String} (apart : Set.InjOn σ.identifier names) {owner : String}
    (known : owner ∈ names) (initializer : Option Node) {following : List Node}
    (named : ∀ s ∈ following, s.NamedIn names) :
    find? (σ.identifier owner) (initializer.map (Node.relabel σ))
      (following.map (Node.relabel σ)) =
        (find? owner initializer following).map (map (Node.relabel σ)) := by
  cases initializer with
  | none =>
    cases following with
    | nil => rfl
    | cons s rest =>
      have call := Enum.wrapperCall?_relabel apart known (named s List.mem_cons_self)
      cases found : Enum.wrapperCall? owner s <;> simp [find?, call, found, map]
  | some literal =>
    have flat := Enum.flatMembers_relabel apart known named
    have fixed := Enum.fixedMembers_relabel apart known named
    cases object : literal.properties? with
    | none => simp [find?, object]
    | some properties =>
      simp only [find?, Option.map_some, Node.properties?_relabel, object, flat, fixed,
        Option.bind_eq_bind, Option.bind_some, List.isEmpty_map, List.length_map]
      split
      · split <;> rfl
      · split <;> rfl

end Run
namespace Candidate

def relabel (σ : Relabeling) (c : Candidate) : Candidate :=
  ⟨σ.identifier c.name, c.modifiers, c.keyword, c.declaration.map (Node.relabel σ),
    c.run.map (Node.relabel σ)⟩

/-- The enum that relabeled statements start with is the relabeled one. -/
theorem find?_relabel {names : Set String} (apart : Set.InjOn σ.identifier names)
    {statements : List Node} (named : ∀ s ∈ statements, s.NamedIn names) :
    find? (statements.map (Node.relabel σ)) = (find? statements).map (relabel σ) := by
  cases statements with
  | nil => rfl
  | cons s following =>
    obtain ⟨first, rest⟩ := List.forall_mem_cons.mp named
    cases s with
    | variableStatement modifiers keyword declarations =>
      rw [List.map_cons, Node.relabel_variableStatement]
      rcases declarations with _ | ⟨⟨declared, initializer⟩, _ | _⟩
      · rfl
      · simp only [List.map_cons, List.map_nil, find?, Declaration.map, Node.identifier?_relabel]
        cases found : declared.identifier? with
        | none => rfl
        | some owner =>
          obtain rfl : declared = .identifier owner := by
            cases declared <;> simp_all [Node.identifier?]
          have known : owner ∈ names := (first.child List.mem_cons_self).identifier
          simp only [Option.map_some, Option.bind_eq_bind, Option.bind_some,
            Run.find?_relabel apart known initializer rest]
          cases Run.find? owner initializer following with
          | none => rfl
          | some run =>
            simp only [Option.map_some, Option.bind_some, Run.length_map, List.length_map]
            split <;> rfl
      · rfl
    | scope => rw [List.map_cons, Node.relabel_scope]; rfl
    | _ => rw [List.map_cons, Node.relabel_eq]; rfl

/-- What is built for a relabeled enum is what is built for the enum, relabeled. -/
theorem statement_relabel {c : Candidate}
    (built : ∀ call, c.run = .wrapper call → Enum.TakesApart call) :
    (c.relabel σ).statement = c.statement.relabel σ := by
  obtain ⟨name, modifiers, keyword, ⟨declared, initializer⟩, run⟩ := c
  cases run with
  | wrapper call =>
    obtain ⟨_, _, _, _, _, _, _, rfl⟩ := built call rfl
    simp [relabel, statement, enclosed, Run.map, Enum.wrapperCall, host,
      Declaration.map, Parameter.map, Node.markPure, Node.block, Node.emptyObject, ScopeHead.map]
  | flat members | fixed members =>
    cases initializer <;>
      simp [relabel, statement, enclosed, Run.map, Enum.membersCall, host, Declaration.map,
        Node.markPure, Node.function, Node.block, Node.declare, Node.declareWith,
        Node.emptyObject, ScopeHead.map]

end Candidate

/-- The call of a recognised wrapper is taken apart after a visit. -/
theorem Candidate.Fits.takesApart {c : Candidate} {run rest : List Node} (fits : c.Fits run rest)
    (depth : Nat) (call : Node) (wraps : (c.visited (Gather.result depth)).run = .wrapper call) :
    Enum.TakesApart call := by
  cases fits with
  | wrapper found =>
    obtain rfl := Run.wrapper.inj wraps
    exact (Enum.takesApart_of_wrapperCall? found).result depth
  | flat | fixed => contradiction

namespace Segment

def relabel (σ : Relabeling) : Segment → Segment
  | pinned s => pinned (s.relabel σ)
  | enum anchor c => enum (anchor.relabel σ) (c.relabel σ)
  | plain s => plain (s.relabel σ)

theorem ofListFrom_relabel {names : Set String} (apart : Set.InjOn σ.identifier names)
    {statements : List Node} (named : ∀ s ∈ statements, s.NamedIn names) (skip : Nat) :
    ofListFrom skip (statements.map (Node.relabel σ)) =
      (ofListFrom skip statements).map (relabel σ) := by
  induction statements generalizing skip with
  | nil => cases skip <;> rfl
  | cons s statements ih =>
    have rest := ih (List.forall_mem_cons.mp named).2
    cases skip with
    | succ skip => exact rest skip
    | zero =>
      have found := Candidate.find?_relabel apart named
      rw [List.map_cons] at found
      rw [List.map_cons, ofListFrom, ofListFrom, Node.isImport_relabel, found]
      split
      · rw [List.map_cons, rest]
        rfl
      · cases Candidate.find? (s :: statements) with
        | none => exact congrArg _ (rest 0)
        | some c =>
          have length : (c.relabel σ).run.length = c.run.length := Run.length_map _ _
          simp only [Option.map_some, length, rest]
          rfl

end Segment

def Event.relabel (σ : Relabeling) : Event → Event
  | limit kind => limit kind
  | enclosed name shape members statement =>
    enclosed (σ.identifier name) shape members (statement.relabel σ)

namespace Gather

/-- A visit of the relabeled node gives the relabeled result and notes the relabeled events. -/
def Commutes (σ : Relabeling) (depth : Nat) (n : Node) : Prop :=
  result depth (n.relabel σ) = (result depth n).relabel σ ∧
    events depth (n.relabel σ) = (events depth n).map (Event.relabel σ)

theorem flatMap_events_relabel {depth : Nat} (nodes : List Node)
    (commutes : ∀ c ∈ nodes, Commutes σ depth c) :
    (nodes.map (Node.relabel σ)).flatMap (events depth) =
      (nodes.flatMap (events depth)).map (Event.relabel σ) := by
  rw [List.flatMap_map, List.map_flatMap]
  exact List.flatMap_congr fun c member => (commutes c member).2

theorem map_result_relabel {depth : Nat} (nodes : List Node)
    (commutes : ∀ c ∈ nodes, Commutes σ depth c) :
    (nodes.map (Node.relabel σ)).map (result depth) =
      (nodes.map (result depth)).map (Node.relabel σ) := by
  rw [List.map_map, List.map_map]
  exact List.map_congr_left fun c member => (commutes c member).1

theorem visited_relabel {depth : Nat} {c : Candidate}
    (commutes : ∀ part ∈ c.run.parts, Commutes σ depth part) :
    (c.relabel σ).visited (result depth) = (c.visited (result depth)).relabel σ := by
  obtain ⟨name, modifiers, keyword, declaration, run⟩ := c
  cases run with
  | wrapper call =>
    have same := (commutes call List.mem_cons_self).1
    simp only [Candidate.relabel, Candidate.visited, Run.map, same]
  | flat members | fixed members =>
    have same := map_result_relabel members commutes
    simp only [Candidate.relabel, Candidate.visited, Run.map, same]

/-- A relabeled segment becomes the relabeled statement, and the events are relabeled. -/
theorem segment_relabel {depth : Nat} {statements : List Node} {segments : List Segment}
    (cut : Segmented statements segments) {g : Segment} (member : g ∈ segments)
    (commutes : ∀ part ∈ g.parts, Commutes σ depth part) :
    (g.relabel σ).after (result depth) = (g.after (result depth)).relabel σ ∧
      (g.relabel σ).events (result depth) (events depth) =
        (g.events (result depth) (events depth)).map (Event.relabel σ) := by
  cases g with
  | pinned s => exact ⟨rfl, rfl⟩
  | plain s =>
    have inside := flatMap_events_relabel [s] commutes
    refine ⟨(commutes s List.mem_cons_self).1, ?_⟩
    simpa [Segment.events, Segment.parts, Segment.relabel] using inside
  | enum anchor c =>
    obtain ⟨run, rest, fits⟩ := cut.fits_of_mem member
    have statement := Candidate.statement_relabel (σ := σ) (fits.takesApart depth)
    have inside := flatMap_events_relabel c.run.parts commutes
    rw [← visited_relabel commutes] at statement
    refine ⟨statement, ?_⟩
    have moved : (c.relabel σ).run.parts = c.run.parts.map (Node.relabel σ) := Run.parts_map ..
    rw [← moved] at inside
    rw [Segment.events, List.map_append]
    refine congrArg₂ (· ++ ·) inside (congrArg (fun event => [event]) ?_)
    rw [statement, Candidate.shape, Candidate.relabel, Run.shape_map, Run.length_map]
    rfl

theorem commutes_scope {names : Set String} (apart : Set.InjOn σ.identifier names) {depth : Nat}
    {head : ScopeHead Node} {statements : List Node}
    (named : (Node.scope head statements).NamedIn names)
    (handed : ∀ c ∈ (Node.scope head statements).handed, Commutes σ depth c) :
    Commutes σ (depth + 1) (.scope head statements) := by
  obtain ⟨inHead, inParts⟩ := List.forall_mem_append.mp handed
  have inStatements : ∀ s ∈ statements, s.NamedIn names := fun s member =>
    named.child (Node.children_scope head statements ▸ List.mem_append_right _ member)
  have segments : Segment.ofList (statements.map (Node.relabel σ)) =
      (Segment.ofList statements).map (Segment.relabel σ) :=
    Segment.ofListFrom_relabel apart inStatements 0
  have each := fun g (member : g ∈ Segment.ofList statements) =>
    segment_relabel (Segment.segmented_ofList statements) member fun part inside =>
      inParts part (List.mem_flatMap.mpr ⟨g, member, inside⟩)
  rw [Commutes, Node.relabel_scope]
  constructor
  · have test : (head.map (Node.relabel σ)).map (result depth) =
        (head.map (result depth)).map (Node.relabel σ) := by
      cases head with
      | caseOf test => exact congrArg ScopeHead.caseOf (inHead test List.mem_cons_self).1
      | _ => rfl
    have list : Segment.relist (result depth) (statements.map (Node.relabel σ)) =
        (Segment.relist (result depth) statements).map (Node.relabel σ) := by
      rw [Segment.relist, segments, Segment.relist, List.map_map, List.map_map]
      exact List.map_congr_left fun g member => (each g member).1
    rw [result, result, Node.rebuild, Node.rebuild, Node.relabel_scope, test, list]
  · rw [events, events, segments, ScopeHead.children_map, flatMap_events_relabel _ inHead,
      List.flatMap_map, List.map_append]
    refine congrArg _ (Eq.trans ?_ List.map_flatMap.symm)
    exact List.flatMap_congr fun g member => (each g member).2

theorem commutes_of_not_scope {depth : Nat} {n : Node} (own : n.statements? = none)
    (inside : ∀ c ∈ n.children, Commutes σ depth c) : Commutes σ (depth + 1) n := by
  have bare : (n.relabel σ).statements? = none := by
    rw [Node.statements?_relabel, own]
    rfl
  constructor
  · have same : n.layer.map (result depth ∘ Node.relabel σ) =
        n.layer.map (Node.relabel σ ∘ result depth) :=
      Layer.map_congr fun c member => (inside c member).1
    calc result (depth + 1) (n.relabel σ)
      _ = (σ.own (n.layer.map (Node.relabel σ)).node).rebuild (result depth) := by
        rw [result, Node.relabel_eq]
      _ = σ.own (n.layer.map (result depth ∘ Node.relabel σ)).node := by
        rw [Node.rebuild_own (Node.statements?_map own), Layer.layer_node, Layer.map_map]
      _ = σ.own ((n.layer.map (result depth)).node.layer.map (Node.relabel σ)).node := by
        rw [same, Layer.layer_node, Layer.map_map]
      _ = (result (depth + 1) n).relabel σ := by
        rw [result, Node.rebuild_of_not_scope own, Node.relabel_eq]
  · rw [events_of_not_scope bare, events_of_not_scope own, Node.children_relabel,
      flatMap_events_relabel _ inside]

/-- Relabeling commutes with a visit, whatever room it has. The induction is on the room: what is
visited from a node has one level less. -/
theorem commutes {names : Set String} (apart : Set.InjOn σ.identifier names) (depth : Nat)
    {n : Node} (named : n.NamedIn names) : Commutes σ depth n := by
  induction depth generalizing n with
  | zero =>
    refine ⟨rfl, ?_⟩
    rw [events, Node.kind_relabel]
    rfl
  | succ depth ih =>
    rcases n.scope_or with ⟨head, statements, rfl⟩ | own
    · exact commutes_scope apart named fun c member =>
        ih (named.subtree (mem_subtrees_of_mem_handed member))
    · exact commutes_of_not_scope own fun c member => ih (named.child member)

theorem isEnclosed_relabel (event : Event) : (event.relabel σ).isEnclosed = event.isEnclosed := by
  cases event <;> rfl

/-- Gathering is blind to names and contents: of a relabeled tree, in which identifiers that
differed still differ, it makes the relabeled result. It keeps the one tree when it keeps the
other, and notes as many enums, in the same order and under their new names. -/
theorem gather_relabel (σ : Relabeling) (t : Node)
    (apart : Set.InjOn σ.identifier {name | .identifier name ∈ t.subtrees}) :
    ∃ e p e' q, t.gather.run .start = .ok (e, p) ∧
      (t.relabel σ).gather.run .start = .ok (e', q) ∧
      e'.applyTo (t.relabel σ) = (e.applyTo t).relabel σ ∧ (e' = .kept ↔ e = .kept) ∧
      q.enclosed = p.enclosed ∧ q.events.toList = p.events.toList.map (Event.relabel σ) := by
  obtain ⟨sameResult, sameEvents⟩ := commutes apart maxTreeDepth (n := t) fun _ member => member
  refine ⟨_, _, _, _, settles_node maxTreeDepth t .start, settles_node maxTreeDepth _ .start,
    ?_, ?_, ?_, ?_⟩
  · rw [applyTo_edit, applyTo_edit, sameResult]
  · rw [edit_eq_kept_iff, edit_eq_kept_iff, sameEvents, List.any_map]
    simp only [Function.comp_def, isEnclosed_relabel]
  · rw [Progress.enclosed_record, Progress.enclosed_record, sameEvents, List.countP_map]
    simp only [Function.comp_def, isEnclosed_relabel]
  · rw [toList_events_start, toList_events_start, sameEvents]

def exchange : Relabeling where
  identifier name := if name = "E" then "F" else if name = "F" then "E" else name
  number := id
  string _ := ""
  member := id
  raw := id

def paired : Node :=
  .file "paired.js" [.declare "E" (some .emptyObject),
    .expressionStatement (.assign (.elementAccessExpression (.identifier "E")
      (.numericLiteral "0")) (.stringLiteral "A")),
    .declare "F" none,
    .expressionStatement (Enum.wrapperCallOf .empty none (.plain "F") (.block
      [.expressionStatement (.assign (.elementAccessExpression (.identifier "F") (.assign
        (.elementAccessExpression (.identifier "F") (.stringLiteral "B")) (.numericLiteral "0")))
        (.stringLiteral "B"))]) [.identifier "F"]),
    .expressionStatement (.callExpression (.identifier "use") [.identifier "E", .identifier "F"])]

theorem exchange_apart (names : Set String) : Set.InjOn exchange.identifier names := by
  have involutive : Function.Involutive exchange.identifier := by
    intro name
    simp only [exchange]
    split_ifs <;> simp_all
  exact involutive.injective.injOn

/-- Each enum is noted under the name that the other one had. -/
theorem gather_relabel_paired : Set.InjOn exchange.identifier {name | .identifier name ∈
      paired.subtrees} ∧
    ∃ e q, (paired.relabel exchange).gather.run .start = .ok (e, q) ∧
      q.events.toList.filterMap Event.outline? =
        [("F", .flatIndexed, 1), ("E", .wrapped, 1)] := by
  refine ⟨exchange_apart _, ?_⟩
  obtain ⟨_, p, e, q, first, second, -, -, -, renamed⟩ :=
    gather_relabel exchange paired (exchange_apart _)
  refine ⟨e, q, second, ?_⟩
  obtain ⟨-, rfl⟩ := Prod.mk.inj (Except.ok.inj ((settles_node _ _ _).symm.trans first))
  rw [renamed, toList_events_start]
  rfl

end Gather
end PureEnum
