import Mathlib.Data.List.Perm.Basic
import PureEnum.Proofs.Settled
import PureEnum.Tree.Recursion

/-! Reach: which statement lists a visit walks, and which enums it thereby finds. It walks every
list of the tree but those inside the literals of the anchors it finds, so these literals are all
that it may pass over. -/
namespace PureEnum

namespace Candidate

def all (statements : List Node) : List Candidate :=
  (List.range statements.length).filterMap (at? statements)

theorem all_cons (s : Node) (statements : List Node) :
    all (s :: statements) = (find? (s :: statements)).toList ++ all statements := by
  rw [all, List.length_cons, List.range_succ_eq_map, List.filterMap_cons, List.filterMap_map]
  have first : at? (s :: statements) 0 = find? (s :: statements) := rfl
  have others : at? (s :: statements) ∘ Nat.succ = at? statements := rfl
  rw [first, others, ← all]
  cases find? (s :: statements) <;> rfl

/-- No enum is anchored in a run. -/
theorem all_append_of_evaluates {run : List Node} (evaluates : ∀ s ∈ run, ∃ e,
    s = .expressionStatement e) (rest : List Node) : all (run ++ rest) = all rest := by
  induction run with
  | nil => rfl
  | cons s run ih =>
    obtain ⟨e, rfl⟩ := evaluates s List.mem_cons_self
    rw [List.cons_append, all_cons, find?_of_evaluated, Option.toList_none, List.nil_append]
    exact ih fun t member => evaluates t (List.mem_cons_of_mem _ member)

end Candidate

namespace Segment

def candidates : Segment → List Candidate
  | enum _ c => [c]
  | pinned _ | plain _ => []

end Segment

/-- The enums of a list are those that it is cut at. -/
theorem Segmented.all {statements : List Node} {segments : List Segment}
    (cut : Segmented statements segments) :
    Candidate.all statements = segments.flatMap Segment.candidates := by
  induction cut with
  | nil => rfl
  | pinned s imports _ ih =>
    rw [Candidate.all_cons, Candidate.find?_of_isImport imports, ih]
    rfl
  | enum c fits _ ih =>
    rw [Candidate.all_cons, Candidate.find?_eq_some.mpr ⟨_, _, rfl, fits⟩,
      Candidate.all_append_of_evaluates fits.evaluates, ih]
    rfl
  | plain s _ none _ ih =>
    rw [Candidate.all_cons, none, ih]
    rfl

namespace Node

def scopes (n : Node) : List (List Node) :=
  n.recurse fun n inside => n.statements?.toList ++ inside.children.flatten

theorem scopes_eq (n : Node) :
    n.scopes = n.statements?.toList ++ n.children.flatMap scopes := by
  rw [scopes, recurse_eq, Layer.children_map, ← List.flatMap_def]
  rfl

def enums (n : Node) : List Candidate := n.scopes.flatMap Candidate.all

theorem enums_eq (n : Node) : n.enums =
    n.statements?.toList.flatMap Candidate.all ++ n.children.flatMap enums := by
  rw [enums, scopes_eq, List.flatMap_append, List.flatMap_assoc]
  rfl

theorem enums_of_not_scope {n : Node} (h : n.statements? = none) :
    n.enums = n.children.flatMap enums := by
  rw [enums_eq, h]
  rfl

theorem enums_skipParens (n : Node) : n.skipParens.enums = n.enums := by
  induction n using skipParens.induct with
  | case1 inner ih =>
    rw [skipParens, ih, enums_of_not_scope (n := .parenthesizedExpression inner) rfl]
    exact (List.flatMap_singleton ..).symm
  | case2 n other =>
    rw [skipParens]
    exact other

/-- The nodes that are visited from a node. A scope hands on its parts, not its statements. -/
def handed : Node → List Node
  | .scope head statements => head.children ++ (Segment.ofList statements).flatMap Segment.parts
  | n => n.children

theorem handed_of_not_scope {n : Node} (h : n.statements? = none) : n.handed = n.children := by
  cases n with
  | scope => simp at h
  | _ => rfl

theorem children_scope (head : ScopeHead Node) (statements : List Node) :
    (Node.scope head statements).children = head.children ++ statements := by
  cases head <;> simp [children, Node.layer, Layer.children, Row.children, Slot.children,
    Cell.children, ScopeHead.children]

theorem children_callExpression (callee : Node) (arguments : List Node) :
    (Node.callExpression callee arguments).children = callee :: arguments := by
  simp [children, Node.layer, Layer.children, Row.children, Slot.children, Cell.children]

theorem children_functionExpression (modifiers : Modifiers) (label : Option String)
    (parameters : List (Parameter Node)) (body : Node) :
    (Node.functionExpression modifiers label parameters body).children =
      parameters.flatMap Parameter.children ++ [body] := by
  simp [children, Node.layer, Layer.children, Row.children, Slot.children, Cell.children]

end Node

/-- The enums inside an object literal that stays with its anchor. -/
def Candidate.hidden (c : Candidate) : List Candidate :=
  c.declaration.initializer.toList.flatMap Node.enums

namespace Gather

def walked : (depth : Nat) → Node → List (List Node)
  | 0, _ => []
  | depth + 1, n => n.statements?.toList ++ n.handed.flatMap (walked depth)

def found (depth : Nat) (n : Node) : List Candidate := (walked depth n).flatMap Candidate.all

def Reaches : (depth : Nat) → Node → Prop
  | 0, _ => False
  | depth + 1, n => ∀ c ∈ n.handed, Reaches depth c

theorem found_succ (depth : Nat) (n : Node) : found (depth + 1) n =
    n.statements?.toList.flatMap Candidate.all ++ n.handed.flatMap (found depth) := by
  rw [found, walked, List.flatMap_append, List.flatMap_assoc]
  rfl

/-- A visit runs out of room exactly when it notes a limit. -/
theorem reaches_iff (depth : Nat) (n : Node) :
    Reaches depth n ↔ ∀ event ∈ events depth n, event.isEnclosed := by
  induction depth generalizing n with
  | zero => simp [Reaches, events, Event.isEnclosed]
  | succ depth ih =>
    rcases n.scope_or with ⟨head, statements, rfl⟩ | h
    · have segment : ∀ g : Segment, (∀ event ∈ g.events (result depth) (events depth),
          event.isEnclosed) ↔ ∀ c ∈ g.parts, Reaches depth c := by
        intro g
        cases g with
        | pinned s => simp [Segment.events, Segment.parts]
        | plain s => simp [Segment.events, Segment.parts, ih]
        | enum anchor c =>
          simp only [Segment.events, Segment.parts, List.forall_mem_append,
            List.forall_mem_flatMap, List.forall_mem_singleton, ih]
          exact and_iff_left rfl
      rw [Reaches, Node.handed, events, List.forall_mem_append, List.forall_mem_append,
        List.forall_mem_flatMap, List.forall_mem_flatMap, List.forall_mem_flatMap]
      simp only [segment, ih]
    · rw [Reaches, Node.handed_of_not_scope h, events_of_not_scope h]
      simp only [ih, List.forall_mem_flatMap]

end Gather

namespace Candidate

theorem enums_anchor {c : Candidate} {run rest : List Node} (fits : c.Fits run rest) :
    c.anchor.enums = c.hidden := by
  have leaf : (Node.identifier c.name).enums = [] := Node.enums_of_not_scope rfl
  have children : c.anchor.children = .identifier c.name :: c.declaration.initializer.toList := by
    cases fits <;> rfl
  rw [Node.enums_of_not_scope rfl, children, List.flatMap_cons, leaf]
  rfl

theorem enums_run {c : Candidate} {run rest : List Node} (fits : c.Fits run rest) :
    run.flatMap Node.enums = c.run.parts.flatMap Node.enums := by
  cases fits with
  | wrapper found =>
    obtain ⟨e, _, _, _, _, _, _, rfl, rfl, _⟩ := Enum.wrapperCall?_eq_some.mp found
    have outer : (Node.expressionStatement e).enums = e.enums := by
      rw [Node.enums_of_not_scope rfl]
      exact List.flatMap_singleton ..
    simp only [Run.parts, List.flatMap_singleton, outer, Node.enums_skipParens]
  | flat => rfl
  | fixed => rfl

end Candidate

/-- The enums under the statements of a list are those under its parts and those hidden with its
anchors. -/
theorem Segmented.enums_perm {statements : List Node} {segments : List Segment}
    (cut : Segmented statements segments) : (statements.flatMap Node.enums).Perm
      ((segments.flatMap Segment.parts).flatMap Node.enums ++
        (segments.flatMap Segment.candidates).flatMap Candidate.hidden) := by
  induction cut with
  | nil => exact .nil
  | pinned s imports _ ih =>
    have bare : s.enums = [] := by
      cases s with
      | importDeclaration => exact Node.enums_of_not_scope rfl
      | _ => contradiction
    rw [List.flatMap_cons, bare]
    exact ih
  | enum c fits _ ih =>
    rw [List.flatMap_cons, List.flatMap_append, Candidate.enums_anchor fits,
      Candidate.enums_run fits]
    apply ((ih.append_left _).append_left _).trans
    simp only [List.flatMap_cons, List.flatMap_append, Segment.parts, Segment.candidates,
      List.flatMap_nil, List.append_nil]
    rw [← List.append_assoc (c.run.parts.flatMap Node.enums)]
    exact List.perm_append_comm_assoc ..
  | plain s _ _ _ ih =>
    simpa [Segment.parts, Segment.candidates] using ih.append_left s.enums

/-- One level down, the enums of a node are its own, those that it hands on, and those hidden with
its own. -/
theorem Node.enums_perm (n : Node) : n.enums.Perm
    (n.statements?.toList.flatMap Candidate.all ++ (n.handed.flatMap enums ++
      (n.statements?.toList.flatMap Candidate.all).flatMap Candidate.hidden)) := by
  rcases n.scope_or with ⟨head, statements, rfl⟩ | h
  · have cut := Segment.segmented_ofList statements
    rw [enums_eq, children_scope, handed, statements?_scope, Option.toList_some,
      List.flatMap_singleton, List.flatMap_append, List.flatMap_append, cut.all, List.append_assoc]
    exact (cut.enums_perm.append_left _).append_left _
  · rw [enums_of_not_scope h, handed_of_not_scope h, h]
    simp

namespace Gather

/-- A visit that does not run out of room finds all enums but those hidden with the found. -/
theorem Reaches.enums_perm {depth : Nat} {n : Node} (reaches : Reaches depth n) :
    n.enums.Perm (found depth n ++ (found depth n).flatMap Candidate.hidden) := by
  induction depth generalizing n with
  | zero => exact reaches.elim
  | succ depth ih =>
    have below : (n.handed.flatMap Node.enums).Perm (n.handed.flatMap (found depth) ++
        (n.handed.flatMap (found depth)).flatMap Candidate.hidden) := by
      rw [List.flatMap_assoc]
      exact (List.Perm.flatMap_left _ fun c member => ih (reaches c member)).trans
        (List.flatMap_append_perm ..).symm
    rw [found_succ, List.flatMap_append, List.append_assoc]
    refine n.enums_perm.trans (List.Perm.append_left _ ?_)
    apply (below.append_right _).trans
    rw [List.append_assoc]
    exact List.Perm.append_left _ List.perm_append_comm

end Gather

def Event.outline? : Event → Option (String × Shape × Nat)
  | limit _ => none
  | enclosed name shape members _ => some (name, shape, members)

namespace Gather

/-- An enum that a visit finds, and the room that its list leaves to the visits of its parts. -/
structure Discovery where
  candidate : Candidate
  room : Nat

/-- What is noted of an enum is what its list has in the place of it. -/
def Discovery.event (d : Discovery) : Event :=
  .enclosed d.candidate.name d.candidate.shape d.candidate.run.length
    (d.candidate.visited (result d.room)).statement

def noted : (depth : Nat) → Node → List Discovery
  | 0, _ => []
  | depth + 1, .scope head statements => head.children.flatMap (noted depth) ++
      (Segment.ofList statements).flatMap fun g =>
        g.parts.flatMap (noted depth) ++ g.candidates.map (Discovery.mk · depth)
  | depth + 1, n => n.children.flatMap (noted depth)

theorem noted_of_not_scope {depth : Nat} {n : Node} (h : n.statements? = none) :
    noted (depth + 1) n = n.children.flatMap (noted depth) := by
  cases n with
  | scope => simp at h
  | _ => rfl

theorem filter_events (depth : Nat) (n : Node) :
    (events depth n).filter Event.isEnclosed = (noted depth n).map Discovery.event := by
  induction depth generalizing n with
  | zero => rfl
  | succ depth ih =>
    rcases n.scope_or with ⟨head, statements, rfl⟩ | h
    · have segment (g : Segment) : (g.events (result depth) (events depth)).filter
          Event.isEnclosed = (g.parts.flatMap (noted depth) ++
            g.candidates.map (Discovery.mk · depth)).map Discovery.event := by
        cases g <;> simp [Segment.events, Segment.parts, Segment.candidates, List.filter_flatMap,
          List.map_flatMap, ih, Discovery.event, Event.isEnclosed]
      simp only [events, noted, List.filter_append, List.filter_flatMap, List.map_append,
        List.map_flatMap, ih, segment]
    · rw [events_of_not_scope h, noted_of_not_scope h, List.filter_flatMap, List.map_flatMap]
      simp only [ih]

/-- A visit notes each enum that it finds, once. -/
theorem noted_perm (depth : Nat) (n : Node) :
    ((noted depth n).map Discovery.candidate).Perm (found depth n) := by
  induction depth generalizing n with
  | zero => exact .nil
  | succ depth ih =>
    have below (nodes : List Node) : (nodes.flatMap fun c =>
        (noted depth c).map Discovery.candidate).Perm (nodes.flatMap (found depth)) :=
      List.Perm.flatMap_left _ fun c _ => ih c
    rw [found_succ]
    rcases n.scope_or with ⟨head, statements, rfl⟩ | h
    · have cut := Segment.segmented_ofList statements
      have candidates (g : Segment) : (g.candidates.map (Discovery.mk · depth)).map
          Discovery.candidate = g.candidates := by cases g <;> rfl
      simp only [noted, List.map_append, List.map_flatMap, candidates]
      rw [Node.statements?_scope, Option.toList_some, List.flatMap_singleton, cut.all, Node.handed]
      apply ((List.flatMap_append_perm ..).symm.append_left _).trans
      rw [← List.flatMap_assoc, ← List.append_assoc, ← List.flatMap_append]
      exact ((below _).append_right _).trans List.perm_append_comm
    · rw [noted_of_not_scope h, Node.handed_of_not_scope h, h, List.map_flatMap]
      exact below _

theorem outlines_eq (depth : Nat) (n : Node) : (events depth n).filterMap Event.outline? =
    (noted depth n).map fun d => d.candidate.outline := by
  have told : (fun event => if event.isEnclosed then event.outline? else none) =
      Event.outline? := by
    funext event
    cases event <;> rfl
  rw [← told, ← List.filterMap_filter, filter_events, List.filterMap_map]
  exact congrFun (List.filterMap_eq_map (f := fun d : Discovery => d.candidate.outline)) _

theorem outlines_perm (depth : Nat) (n : Node) : ((events depth n).filterMap Event.outline?).Perm
    ((found depth n).map Candidate.outline) := by
  have perm := (noted_perm depth n).map Candidate.outline
  rw [List.map_map] at perm
  rwa [outlines_eq]

theorem outlines_length (noted : List Event) :
    (noted.filterMap Event.outline?).length = noted.countP Event.isEnclosed := by
  induction noted with
  | nil => rfl
  | cons event noted ih =>
    cases event with
    | limit => exact ih
    | enclosed => exact (congrArg Nat.succ ih).trans (List.countP_cons_of_pos rfl).symm

theorem length_found (depth : Nat) (n : Node) :
    (found depth n).length = (events depth n).countP Event.isEnclosed := by
  rw [← outlines_length, (outlines_perm depth n).length_eq, List.length_map]

/-- Whatever is found is there, and more is there only if something is hidden. -/
theorem Reaches.length_enums_iff {depth : Nat} {n : Node} (reaches : Reaches depth n) :
    (found depth n).length = n.enums.length ↔ ∀ c ∈ n.enums, c.hidden = [] := by
  have split := reaches.enums_perm
  rw [split.length_eq, List.length_append, Nat.left_eq_add, List.length_eq_zero_iff,
    List.flatMap_eq_nil_iff]
  constructor
  · intro none c member
    have all : (found depth n).flatMap Candidate.hidden = [] := List.flatMap_eq_nil_iff.mpr none
    rw [all, List.append_nil] at split
    exact none c (split.subset member)
  · intro none c member
    exact none c (split.symm.subset (List.mem_append_left _ member))

theorem toList_events_start (noted : List Event) :
    (Progress.start.record noted).events.toList = noted := by
  rw [Progress.events_record]
  simp [Progress.start]

theorem mem_events_start {event : Event} (noted : List Event) :
    event ∈ (Progress.start.record noted).events ↔ event ∈ noted := by
  rw [← Array.mem_toList_iff, toList_events_start]

/-- When no limit is met, the enclosed enums are the enums anywhere in the tree but those hidden
in the literals of enclosed anchors. None is passed over exactly when none is hidden. -/
theorem enclosed_enums (t : Node) : ∃ e p, t.gather.run .start = .ok (e, p) ∧
    ((∀ event ∈ p.events, event.isEnclosed) →
      t.enums.Perm (found maxTreeDepth t ++ (found maxTreeDepth t).flatMap Candidate.hidden) ∧
      (p.events.toList.filterMap Event.outline?).Perm
        ((found maxTreeDepth t).map Candidate.outline) ∧
      p.enclosed = (found maxTreeDepth t).length ∧
      (p.enclosed = t.enums.length ↔ ∀ c ∈ t.enums, c.hidden = [])) := by
  refine ⟨_, _, settles_node maxTreeDepth t .start, fun inside => ?_⟩
  have counted : (Progress.start.record (events maxTreeDepth t)).enclosed =
      (found maxTreeDepth t).length := by
    rw [Progress.enclosed_record, length_found]
    exact Nat.zero_add _
  have reaches : Reaches maxTreeDepth t := by
    rw [reaches_iff]
    intro event noted
    exact inside event ((mem_events_start _).mpr noted)
  rw [toList_events_start, counted]
  exact ⟨reaches.enums_perm, outlines_perm maxTreeDepth t, rfl, reaches.length_enums_iff⟩

def nested : Node :=
  let inner := [.declare "I" (some (.object [("B", .numericLiteral "0")])),
    .expressionStatement (.assign (.elementAccessExpression (.identifier "I")
      (.propertyAccessExpression (.identifier "I") "B")) (.stringLiteral "B")),
    .returnStatement (some (.identifier "I"))]
  .file "nested.js" [.declare "O" (some (.object [("A", .function none [] inner)])),
    .expressionStatement (.assign (.elementAccessExpression (.identifier "O")
      (.propertyAccessExpression (.identifier "O") "A")) (.stringLiteral "A")),
    .expressionStatement (.callExpression (.identifier "use") [.identifier "O"])]

theorem inside_nested {e : Edit Node} {p : Progress}
    (ran : nested.gather.run .start = .ok (e, p)) : ∀ event ∈ p.events, event.isEnclosed := by
  obtain ⟨-, rfl⟩ := Prod.mk.inj (Except.ok.inj ((settles_node _ _ _).symm.trans ran))
  have noted : (events maxTreeDepth nested).all Event.isEnclosed := by decide
  intro event member
  exact List.all_eq_true.mp noted event ((mem_events_start _).mp member)

theorem enclosed_enums_nested : ∃ e p, nested.gather.run .start = .ok (e, p) ∧
    p.enclosed = (found maxTreeDepth nested).length := by
  obtain ⟨e, p, ran, inside⟩ := enclosed_enums nested
  exact ⟨e, p, ran, (inside (inside_nested ran)).2.2.1⟩

/-- One of the two enums is enclosed. -/
theorem passes_over_hidden : ¬ ∀ (t : Node) e p, t.gather.run .start = .ok (e, p) →
    (∀ event ∈ p.events, event.isEnclosed) → p.enclosed = t.enums.length := by
  intro every
  have ran := settles_node maxTreeDepth nested .start
  have one : (Progress.start.record (events maxTreeDepth nested)).enclosed = 1 := by decide
  have two : nested.enums.length = 2 := by
    simp only [Node.enums, nested, Node.file, Node.declare, Node.declareWith, Node.object,
      Node.function, Node.block, List.map_cons, List.map_nil, Node.assign, Node.scopes_eq,
      Node.statements?, Option.toList_some, Node.children, Layer.children, Node.layer, Row.children,
      Slot.children, Cell.children, List.append_nil, List.nil_append, List.flatMap_cons,
      Option.toList_none, Declaration.children, List.flatMap_nil, List.cons_append,
      List.length_append]
    rfl
  have counted := every nested _ _ ran (inside_nested ran)
  rw [one, two] at counted
  contradiction

end Gather

end PureEnum
