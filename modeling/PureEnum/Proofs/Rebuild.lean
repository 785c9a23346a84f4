import PureEnum.Proofs.Scan
import PureEnum.Proofs.Written
import PureEnum.Tree.Mark

/-! One-level revision is faithful. It visits the direct subtrees in the order in which the node is
written, once each and not after an error, and it puts what the visits left into the shape of the
node. The revision under a mark does the same in every monad: no mark is lost, since a list that
was not copied and records that were thrown away are the ones that stood there. -/
namespace PureEnum

variable {m : Type → Type} [Monad m] [LawfulMonad m]

theorem length_edited {nodes : List Node} {edits : List (Edit Node)}
    (length : edits.length = nodes.length) : (edited nodes edits).length = nodes.length := by
  rw [edited, List.length_zipWith, length, Nat.min_self]

theorem edited_append {nodes others : List Node} {edits rest : List (Edit Node)}
    (length : edits.length = nodes.length) :
    edited (nodes ++ others) (edits ++ rest) = edited nodes edits ++ edited others rest :=
  List.zipWith_append length.symm

/-- Nodes that were all kept are the nodes that they were. -/
theorem edited_of_kept {nodes : List Node} {edits : List (Edit Node)}
    (length : edits.length = nodes.length) (kept : edits.any Edit.isFresh = false) :
    edited nodes edits = nodes := by
  induction nodes generalizing edits with
  | nil => rfl
  | cons n nodes ih =>
    obtain ⟨e, edits, rfl⟩ := List.exists_cons_of_length_eq_add_one length
    obtain ⟨first, others⟩ := Bool.or_eq_false_iff.mp kept
    obtain rfl := Edit.eq_kept_of_isFresh first
    have rest := ih (by simpa using length) others
    rw [edited, List.zipWith_cons_cons, Edit.applyTo_kept, ← edited, rest]

theorem map_now_revisions (nodes : List Node) (edits : List (Edit Node)) :
    (revisions nodes edits).map Revision.now = edited nodes edits := List.map_zipWith ..

theorem any_isFresh_revisions {nodes : List Node} {edits : List (Edit Node)}
    (length : edits.length = nodes.length) :
    (revisions nodes edits).any Revision.isFresh = edits.any Edit.isFresh := by
  induction nodes generalizing edits with
  | nil =>
    obtain rfl := List.length_eq_zero_iff.mp length
    rfl
  | cons n nodes ih =>
    obtain ⟨e, edits, rfl⟩ := List.exists_cons_of_length_eq_add_one length
    have rest := ih (by simpa using length)
    rw [revisions, List.zipWith_cons_cons, ← revisions, List.any_cons, rest]
    rfl

/-- Visits that say what they were of. -/
theorem mapM_revisions (visit : Node → m (Edit Node)) (nodes : List Node) :
    nodes.mapM (Revision.ofVisit visit) = revisions nodes <$> nodes.mapM visit := by
  induction nodes with
  | nil => simp [revisions]
  | cons n nodes ih =>
    simp only [List.mapM_cons, ih, Revision.ofVisit, map_eq_pure_bind, bind_assoc, pure_bind]
    rfl

/-- A node with other subtrees in the shape of the one that it was. -/
structure Refills (n : Node) (edits : List (Edit Node)) (rebuilt : Node) : Prop where
  kind : rebuilt.kind = n.kind
  children : rebuilt.children = edited n.children edits
  shape : rebuilt.layer.shape = n.layer.shape
  written : rebuilt.toJson.frame = n.toJson.frame

/-- What revision makes of a node from the edits of its direct subtrees. -/
structure Rebuilds (n : Node) (edits : List (Edit Node)) (answer : Edit Node) : Prop where
  length : edits.length = n.children.length
  kept_iff : answer = .kept ↔ ∀ e ∈ edits, e = .kept
  refills : ∀ rebuilt, answer = .fresh rebuilt → Refills n edits rebuilt

/-- A node is rebuilt in one way. -/
theorem Rebuilds.unique {n : Node} {edits : List (Edit Node)} {answer other : Edit Node}
    (rebuilds : Rebuilds n edits answer) (also : Rebuilds n edits other) : answer = other := by
  cases answer with
  | kept => exact (also.kept_iff.mpr (rebuilds.kept_iff.mp rfl)).symm
  | fresh first =>
    cases other with
    | kept => exact rebuilds.kept_iff.mpr (also.kept_iff.mp rfl)
    | fresh second =>
      have refills := rebuilds.refills first rfl
      have again := also.refills second rfl
      have subtrees := refills.children.trans again.children.symm
      have shapes := refills.shape.trans again.shape.symm
      have same := congrArg Layer.node (Layer.eq_of_shape shapes subtrees)
      rw [Node.node_layer, Node.node_layer] at same
      rw [same]

theorem rebuilds_of_layer {n : Node} {edits : List (Edit Node)} {l : Layer Node}
    (length : edits.length = n.children.length) (subtrees : l.children = edited n.children edits)
    (shape : l.shape = n.layer.shape) :
    Rebuilds n edits (if edits.any Edit.isFresh then .fresh l.node else .kept) := by
  by_cases fresh : edits.any Edit.isFresh
  · rw [if_pos fresh]
    refine ⟨length, ⟨fun kept => by contradiction, fun kept => ?_⟩, ?_⟩
    · obtain ⟨e, member, isFresh⟩ := List.any_eq_true.mp fresh
      rw [kept e member] at isFresh
      contradiction
    · rintro _ ⟨⟩
      have same : l.node.layer.shape = n.layer.shape := by rw [Layer.layer_node, shape]
      have kind : l.shape.kind = n.layer.shape.kind := congrArg Layer.kind shape
      refine ⟨?_, ?_, same, Node.frame_toJson same⟩
      · rw [Layer.kind_node, ← Node.kind_layer n]
        exact kind
      · rw [Node.children, Layer.layer_node, subtrees]
  · rw [if_neg fresh]
    refine ⟨length, ⟨fun _ e member => ?_, fun _ => rfl⟩, fun _ same => by contradiction⟩
    apply Edit.eq_kept_iff.mpr
    exact eq_false_of_ne_true fun isFresh => fresh (List.any_eq_true.mpr ⟨e, member, isFresh⟩)

/-- Revision visits the direct subtrees in order and rebuilds the node from what they became. -/
theorem Node.yields_reviseChildren (n : Node) :
    Yields n.children (fun _ _ visit => n.reviseChildren visit) (Rebuilds n) := by
  obtain ⟨fill, known, ran⟩ := n.layer.yields (μ := Revision)
  refine ⟨fun edits => (fill (revisions n.children edits)).revised, fun edits length => ?_,
    fun m _ _ visit => ?_⟩
  · have count : (revisions n.children edits).length = n.children.length := by
      simp [revisions, length]
    obtain ⟨subtrees, shape⟩ := known _ count
    simp only [Layer.revised]
    rw [subtrees, any_isFresh_revisions length]
    apply rebuilds_of_layer length
    · rw [Layer.children_map, subtrees, map_now_revisions]
    · rw [Layer.shape_map, shape]
  · have traversed := ran m (Revision.ofVisit visit)
    rw [mapM_revisions] at traversed
    simp only [reviseChildren, traversed]
    simp [children]

namespace Mark

/-- An action under a mark that visits some nodes in order. It makes a value of what the visits
left, and the mark is set afterwards if it was before or if a node was replaced. -/
def Marks (visit : Node → m (Edit Node)) (cs : List Node) (act : StateT Bool m κ)
    (P : List Node → κ → Prop) : Prop :=
  ∃ value : List Node → κ, (∀ ys, ys.length = cs.length → P ys (value ys)) ∧ ∀ mark,
    act.run mark = (fun edits => (value (edited cs edits), mark || edits.any Edit.isFresh)) <$>
      cs.mapM visit

variable {visit : Node → m (Edit Node)} {κ ρ τ : Type}

theorem run_node (n : Node) (mark : Bool) : (node visit n).run mark =
    (fun e => (e.applyTo n, mark || e.isFresh)) <$> visit n := by
  simp only [node, StateT.run_bind, StateT.run_monadLift, monadLift_self, map_eq_pure_bind,
    bind_assoc, pure_bind]
  congr 1
  funext e
  cases e <;> simp [Edit.isFresh]

theorem run_mapM_node (cs : List Node) (mark : Bool) : (cs.mapM (node visit)).run mark =
    (fun edits => (edited cs edits, mark || edits.any Edit.isFresh)) <$> cs.mapM visit := by
  induction cs generalizing mark with
  | nil => simp [edited]
  | cons c cs ih =>
    simp only [List.mapM_cons, StateT.run_bind, StateT.run_pure, run_node, ih, map_eq_pure_bind,
      bind_assoc, pure_bind]
    simp only [edited, List.zipWith_cons_cons, List.any_cons, Bool.or_assoc]

/-- What a rule yields in every monad it also yields under a mark. -/
theorem marks_of_yields {cs : List Node} {rule : Rule Node Node κ} {P : List Node → κ → Prop}
    (yields : Yields cs rule P) : Marks visit cs (rule (StateT Bool m) (node visit)) P := by
  obtain ⟨value, known, ran⟩ := yields
  refine ⟨value, known, fun mark => ?_⟩
  rw [ran, StateT.run_map, run_mapM_node]
  simp

theorem Marks.both {cs ds : List Node} {first : StateT Bool m κ} {second : StateT Bool m ρ}
    {P : List Node → κ → Prop} {Q : List Node → ρ → Prop} {R : List Node → τ → Prop}
    (join : κ → ρ → τ) (marks : Marks visit cs first P) (follows : Marks visit ds second Q)
    (joins : ∀ ys x zs y, P ys x → Q zs y → R (ys ++ zs) (join x y)) :
    Marks visit (cs ++ ds) (first >>= fun x => second >>= fun y => pure (join x y)) R := by
  obtain ⟨value, known, ran⟩ := marks
  obtain ⟨other, alsoKnown, alsoRan⟩ := follows
  refine ⟨_, known_joined known alsoKnown joins, fun mark => ?_⟩
  simp only [StateT.run_bind, ran, alsoRan, List.mapM_append, map_eq_pure_bind, bind_assoc,
    pure_bind, StateT.run_pure]
  apply bind_mapM_congr
  intro edits length
  apply bind_mapM_congr
  intro rest _
  rw [edited_append length, List.any_append, Bool.or_assoc, ← length_edited length,
    List.take_left, List.drop_left]

omit [LawfulMonad m] in
theorem Marks.imp {cs : List Node} {act : StateT Bool m κ} {P Q : List Node → κ → Prop}
    (marks : Marks visit cs act P) (imp : ∀ ys x, P ys x → Q ys x) : Marks visit cs act Q := by
  obtain ⟨value, known, ran⟩ := marks
  exact ⟨value, fun ys length => imp _ _ (known ys length), ran⟩

theorem Marks.map {cs : List Node} {act : StateT Bool m κ} {P : List Node → κ → Prop}
    {Q : List Node → ρ → Prop} (value : κ → ρ) (marks : Marks visit cs act P)
    (maps : ∀ ys x, P ys x → Q ys (value x)) :
    Marks visit cs (act >>= fun x => pure (value x)) Q := by
  obtain ⟨before, known, ran⟩ := marks
  refine ⟨fun ys => value (before ys), fun ys length => maps _ _ (known ys length),
    fun mark => ?_⟩
  simp only [StateT.run_bind, ran, map_eq_pure_bind, bind_assoc, pure_bind, StateT.run_pure]

/-- The copy holds what the visits left, from the first replaced item on. -/
theorem items_eq (before : List Node) (copy : Option (List Node)) (xs : List Node) :
    items visit before copy xs =
      (fun edits => Gather.extended before copy (revisions xs edits)) <$> xs.mapM visit := by
  induction xs generalizing before copy with
  | nil => simp [items, revisions]
  | cons x xs ih =>
    simp only [items, ih, List.mapM_cons, map_eq_pure_bind, bind_assoc, pure_bind]
    congr 1
    funext e
    congr 1
    funext edits
    congr 1
    cases e with
    | kept => simp [revisions, Gather.extended_kept, Edit.isFresh]
    | fresh now =>
      cases copy <;>
        simp [revisions, Gather.extended_fresh before _ _ _ _ (before ++ [x]), Edit.isFresh]

theorem marks_list (xs : List Node) : Marks visit xs (list visit xs)
    fun ys items => items = ys ∧ items.length = xs.length := by
  refine ⟨id, fun ys length => ⟨rfl, length⟩, fun mark => ?_⟩
  simp only [list, items_eq, StateT.run_bind, StateT.run_monadLift, monadLift_self,
    map_eq_pure_bind, bind_assoc, pure_bind]
  apply bind_mapM_congr
  intro edits length
  rw [Gather.extended, any_isFresh_revisions length, map_now_revisions]
  by_cases fresh : edits.any Edit.isFresh
  · simp [fresh]
  · rw [Bool.not_eq_true] at fresh
    simp [fresh, edited_of_kept length fresh]

/-- Records that are thrown away are the ones that stood there. -/
theorem marks_records {cs : List Node} {rebuild : ρ → StateT Bool m ρ} {xs : List ρ}
    {P : List Node → List ρ → Prop} (marks : Marks visit cs (xs.mapM rebuild) P)
    (same : ∀ copies, P cs copies → copies = xs) : Marks visit cs (records rebuild xs) P := by
  obtain ⟨value, known, ran⟩ := marks
  refine ⟨value, known, fun mark => ?_⟩
  simp only [records, StateT.run_bind, StateT.run_get, StateT.run_set, StateT.run_pure, ran,
    map_eq_pure_bind, bind_assoc, pure_bind]
  apply bind_mapM_congr
  intro edits length
  by_cases fresh : edits.any Edit.isFresh
  · simp [fresh]
  · rw [Bool.not_eq_true] at fresh
    have kept := same _ (known cs rfl)
    simp [fresh, edited_of_kept length fresh, kept]

def slot (visit : Node → m (Edit Node)) : (s : Slot) → s.Content Node →
    StateT Bool m (s.Content Node)
  | .nodes, xs => list visit xs
  | .nodes?, xs => list? visit xs
  | .declarations, ds => declarations visit ds
  | .parameters, ps => parameters visit ps
  | .cell c, x => c.traverse (node visit) x
  | .text?, x => return x
  | .texts, x => return x
  | .modifiers, x => return x
  | .keyword, x => return x
  | .comment, x => return x

def row (visit : Node → m (Edit Node)) : {fields : List (String × Slot)} →
    Row (Slot.Content Node) fields → StateT Bool m (Row (Slot.Content Node) fields)
  | [], () => return ()
  | field :: _, (x, rest) => return (← slot visit field.2 x, ← row visit rest)

/-- The parts of a node are rebuilt in the order in which the node is written. -/
theorem rebuild_eq_row (n : Node) : rebuild visit n =
    (fun rebuilt => Layer.node ⟨n.layer.kind, rebuilt⟩) <$> row visit n.layer.row := by
  cases n with
  | scope head _ =>
    cases head <;> simp [rebuild, row, slot, Node.layer, Layer.node, Cell.traverse]
  | _ =>
    simp [rebuild, row, slot, Node.layer, Layer.node, Cell.traverse, node?]

theorem marks_slot (s : Slot) (x : s.Content Node) : Marks visit (s.children x) (slot visit s x)
    fun ys (y : s.Content Node) => s.children y = ys ∧ s.shape y = s.shape x := by
  match s, x with
  | .cell c, x => exact marks_of_yields (Slot.yields (.cell c) x)
  | .nodes, xs => exact (marks_list xs).imp fun _ _ known => ⟨known.1, units known.2⟩
  | .nodes?, none => exact marks_of_yields (Slot.yields .nodes? none)
  | .nodes?, some xs =>
    change Marks visit xs (some <$> list visit xs) _
    rw [map_eq_pure_bind]
    exact (marks_list xs).map some fun _ _ known => ⟨known.1, congrArg some (units known.2)⟩
  | .declarations, ds =>
    refine marks_records (marks_of_yields (Slot.yields .declarations ds)) ?_
    rintro copies ⟨subtrees, shape⟩
    exact Slot.eq_of_shape (s := .declarations) shape subtrees
  | .parameters, ps =>
    refine marks_records (marks_of_yields (Slot.yields .parameters ps)) ?_
    rintro copies ⟨subtrees, shape⟩
    exact Slot.eq_of_shape (s := .parameters) shape subtrees
  | .text?, x => exact marks_of_yields (Slot.yields .text? x)
  | .texts, x => exact marks_of_yields (Slot.yields .texts x)
  | .modifiers, x => exact marks_of_yields (Slot.yields .modifiers x)
  | .keyword, x => exact marks_of_yields (Slot.yields .keyword x)
  | .comment, x => exact marks_of_yields (Slot.yields .comment x)

theorem marks_row : {fields : List (String × Slot)} → (content : Row (Slot.Content Node) fields) →
    Marks visit content.children (row visit content)
      fun ys (rebuilt : Row (Slot.Content Node) fields) =>
        rebuilt.children = ys ∧ rebuilt.shape = content.shape
  | [], () => marks_of_yields (Row.yields ())
  | field :: _, (x, rest) => by
    refine (marks_slot field.2 x).both Prod.mk (marks_row rest) ?_
    rintro _ y _ others ⟨rfl, first⟩ ⟨rfl, behind⟩
    exact ⟨rfl, Prod.ext first behind⟩

end Mark

def Edit.value? : Edit α → Option α
  | kept => none
  | fresh value => some value

/-- Revision under a mark is revision, whatever the visits do. -/
theorem Mark.revise_eq (visit : Node → m (Edit Node)) (n : Node) :
    Mark.revise visit n = Edit.value? <$> n.reviseChildren visit := by
  obtain ⟨value, known, ran⟩ := (marks_row n.layer.row : Marks visit _ _ _)
  obtain ⟨rebuild, rebuilds, revised⟩ := n.yields_reviseChildren
  have plain : n.reviseChildren visit = rebuild <$> n.children.mapM visit := revised m visit
  rw [plain, revise, rebuild_eq_row, StateT.run_map, ran false]
  simp only [map_eq_pure_bind, bind_assoc, pure_bind, Bool.false_or]
  apply bind_mapM_congr
  intro edits length
  obtain ⟨subtrees, shape⟩ := known _ (length_edited length)
  -- both answers rebuild the node from the same edits, which is possible in one way
  have same := (rebuilds edits length).unique (rebuilds_of_layer
    (l := ⟨n.layer.kind, value (edited n.children edits)⟩) length subtrees
    (congrArg (Layer.mk n.layer.kind) shape))
  rw [same]
  cases edits.any Edit.isFresh <;> rfl

section Failing

variable {ε σ κ ρ : Type} {x : ExceptT ε (StateM σ) κ} {f : κ → ExceptT ε (StateM σ) ρ}
  {s after : σ}

theorem run_bind_of_ok {a : κ} (ran : x.run.run s = (.ok a, after)) :
    (x >>= f).run.run s = (f a).run.run after := by
  rw [ExceptT.run_bind, StateT.run_bind, ran]
  rfl

/-- What is not reached after an error leaves no trace. -/
theorem run_bind_of_error {error : ε} (ran : x.run.run s = (.error error, after)) :
    (x >>= f).run.run s = (.error error, after) := by
  rw [ExceptT.run_bind, StateT.run_bind, ran]
  rfl

end Failing

/-- The calls of a visitor that keeps a state and may fail: one for each node, in order, until one
fails. -/
inductive Visits (visit : Node → ExceptT ε (StateM σ) (Edit Node)) :
    List Node → σ → Except ε (List (Edit Node)) → σ → Prop where
  | done {s : σ} : Visits visit [] s (.ok []) s
  | fails {c : Node} {cs : List Node} {s after : σ} {error : ε} :
      (visit c).run.run s = (.error error, after) → Visits visit (c :: cs) s (.error error) after
  | next {c : Node} {cs : List Node} {s between after : σ} {e : Edit Node}
      {outcome : Except ε (List (Edit Node))} : (visit c).run.run s = (.ok e, between) →
      Visits visit cs between outcome after →
      Visits visit (c :: cs) s ((e :: ·) <$> outcome) after

section Visits

variable {ε σ : Type} {visit : Node → ExceptT ε (StateM σ) (Edit Node)}

theorem Visits.length {cs : List Node} {s after : σ} {outcome : Except ε (List (Edit Node))}
    (visits : Visits visit cs s outcome after) :
    ∀ edits, outcome = .ok edits → edits.length = cs.length := by
  induction visits with
  | done =>
    rintro _ ⟨⟩
    rfl
  | fails => exact nofun
  | next _ _ ih =>
    rename_i outcome _ _
    cases outcome with
    | error => exact nofun
    | ok edits =>
      rintro _ ⟨⟩
      simp [ih edits rfl]

theorem visits_mapM (visit : Node → ExceptT ε (StateM σ) (Edit Node)) (cs : List Node) (s : σ) :
    ∃ outcome after, Visits visit cs s outcome after ∧
      (cs.mapM visit).run.run s = (outcome, after) := by
  induction cs generalizing s with
  | nil => exact ⟨_, _, .done, by simp; rfl⟩
  | cons c cs ih =>
    cases ran : (visit c).run.run s with
    | mk result between =>
      rw [List.mapM_cons]
      cases result with
      | error error => exact ⟨_, _, .fails ran, run_bind_of_error ran⟩
      | ok e =>
        obtain ⟨outcome, after, visits, others⟩ := ih between
        refine ⟨_, _, .next ran visits, (run_bind_of_ok ran).trans ?_⟩
        cases outcome with
        | error => exact run_bind_of_error others
        | ok edits => exact run_bind_of_ok others

end Visits

/-- One-level revision is a faithful rebuild of every node, for every visitor. The subtrees are
visited in the order in which they are written, and no other node is; an error is the answer and
ends the visits; without one, the node is kept exactly when every subtree was, and else its shape
is filled with what the visits left. Revision under a mark does the same, whatever the effects. -/
theorem Node.reviseChildren_faithful (n : Node) :
    n.toJson.inside = n.children.map toJson ∧
    (∀ {ε σ : Type} (visit : Node → ExceptT ε (StateM σ) (Edit Node)) (s : σ), ∃ outcome after,
      Visits visit n.children s outcome after ∧
      match outcome with
      | .error error => (n.reviseChildren visit).run.run s = (.error error, after)
      | .ok edits => ∃ answer, (n.reviseChildren visit).run.run s = (.ok answer, after) ∧
        Rebuilds n edits answer) ∧
    ∀ {m : Type → Type} [Monad m] [LawfulMonad m] (visit : Node → m (Edit Node)),
      Mark.revise visit n = Edit.value? <$> n.reviseChildren visit := by
  refine ⟨n.inside_toJson, fun visit s => ?_, fun visit => Mark.revise_eq visit n⟩
  obtain ⟨rebuild, rebuilds, revised⟩ := n.yields_reviseChildren
  obtain ⟨outcome, after, visits, ran⟩ := visits_mapM visit n.children s
  refine ⟨outcome, after, visits, ?_⟩
  have plain : n.reviseChildren visit = rebuild <$> n.children.mapM visit := revised _ visit
  have answered : (n.reviseChildren visit).run.run s = (rebuild <$> outcome, after) := by
    rw [plain, ExceptT.run_map, StateT.run_map, ran]
    rfl
  cases outcome with
  | error error => exact answered
  | ok edits => exact ⟨rebuild edits, answered, rebuilds edits (visits.length edits rfl)⟩

def replacing (c : Node) : ExceptT String (StateM Nat) (Edit Node) := do
  modify (· + 1)
  if c.isNamed "stop" then throw "stopped"
  return if c.isNamed "a" then .fresh (.identifier "b") else .kept

def declaring : Node :=
  .variableStatement .empty .var
    [⟨.identifier "x", some (.identifier "a")⟩, ⟨.identifier "a", none⟩]

/-- Its three subtrees are visited and the node is rebuilt, under a mark also. -/
theorem Node.reviseChildren_faithful_declaring : ∃ edits answer,
    Visits replacing declaring.children 0 (.ok edits) 3 ∧
    (declaring.reviseChildren replacing).run.run 0 = (.ok answer, 3) ∧
    Rebuilds declaring edits answer ∧
    Mark.revise replacing declaring = Edit.value? <$> declaring.reviseChildren replacing := by
  obtain ⟨-, ran, marked⟩ := declaring.reviseChildren_faithful
  obtain ⟨outcome, after, visits, answered⟩ := ran replacing 0
  obtain ⟨answer, known⟩ : ∃ answer, (declaring.reviseChildren replacing).run.run 0 =
    (.ok answer, 3) := ⟨_, rfl⟩
  cases outcome with
  | error error => exact nomatch answered.symm.trans known
  | ok edits =>
    obtain ⟨other, answered, rebuilds⟩ := answered
    obtain ⟨same, rfl⟩ := Prod.mk.inj (answered.symm.trans known)
    exact ⟨edits, other, visits, answered, rebuilds, marked replacing⟩

end PureEnum
