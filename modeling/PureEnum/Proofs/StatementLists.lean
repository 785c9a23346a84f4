import PureEnum.Enum.Dispatch
import PureEnum.Proofs.RoundTrip
import PureEnum.Proofs.Scan

/-! Statement lists. A scope has one, which can be taken out and replaced without touching the rest
of the scope, and no other node has one. So a visit that takes out the list of a node of a scope
kind and puts another one in its place never falls back on anything, and it loses no change. -/
namespace PureEnum

namespace Node

def field? (n : Node) (name : String) : Option Json :=
  match n.toJson with
  | .obj fields => fields.lookup name
  | _ => none

theorem field?_eq (n : Node) (name : String) : n.field? name =
    (("kind", Json.str n.kind.name) ::
      Row.encode Slot.encode (n.layer.map toJson).row).lookup name := by
  rw [field?, toJson_eq, ← kind_layer]
  rfl

theorem isSome_lookup_iff {fields : List (String × Json)} {name : String} :
    (fields.lookup name).isSome ↔ name ∈ fields.map Prod.fst := by
  simp only [List.lookup_isSome_iff, List.mem_map, beq_iff_eq, eq_comm (a := name)]

/-- What is written for a node is its kind and the fields of the kind. -/
theorem isSome_field?_iff (n : Node) (name : String) :
    (n.field? name).isSome ↔ name ∈ "kind" :: n.kind.fields.map Prod.fst := by
  have names := (Row.names_encode Slot.encode (n.layer.map toJson).row).trans
    (congrArg (fun kind : Kind => kind.fields.map Prod.fst) n.kind_layer)
  rw [field?_eq, isSome_lookup_iff, List.map_cons, names]

theorem statements_mem_fields_iff (kind : Kind) :
    "statements" ∈ kind.fields.map Prod.fst ↔ kind.isScope := by
  cases kind <;> decide

theorem withStatements?_eq_some {n m : Node} {statements : List Node} :
    n.withStatements? statements = some m ↔
      ∃ head was, n = .scope head was ∧ m = .scope head statements := by
  cases n with
  | scope head was => simp [eq_comm]
  | _ => simp [withStatements?]

theorem isSome_statements?_iff (n : Node) : n.statements?.isSome ↔ n.kind.isScope := by
  cases n with
  | scope head own => cases head <;> simp [statements?, kind, ScopeHead.kind, Kind.isScope]
  | _ => simp [statements?, kind, Kind.isScope]

theorem isSome_withStatements?_iff (n : Node) (statements : List Node) :
    (n.withStatements? statements).isSome ↔ n.kind.isScope := by
  cases n with
  | scope head own => cases head <;> simp [withStatements?, kind, ScopeHead.kind, Kind.isScope]
  | _ => simp [withStatements?, kind, Kind.isScope]

/-- A node is another one with its statement list replaced. The rest of it is written alike. -/
structure Relists (n : Node) (statements : List Node) (m : Node) : Prop where
  kind : m.kind = n.kind
  list : m.statements? = some statements
  written : m.field? "statements" = some (.arr (statements.map toJson))
  others : ∀ name ≠ "statements", m.field? name = n.field? name

theorem field?_statements (head : ScopeHead Node) (statements : List Node) :
    (scope head statements).field? "statements" = some (.arr (statements.map toJson)) := by
  rw [field?_eq]
  cases head <;> rfl

/-- The other fields of a scope do not depend on its list. -/
theorem field?_scope_congr (head : ScopeHead Node) (was statements : List Node) {name : String}
    (other : name ≠ "statements") :
    (scope head statements).field? name = (scope head was).field? name := by
  have apart : (name == "statements") = false := beq_false_of_ne other
  rw [field?_eq, field?_eq]
  cases head <;>
    simp [layer, Layer.map, Row.map, Row.encode, List.lookup_cons, apart, kind, ScopeHead.kind]

theorem relists_scope (head : ScopeHead Node) (was statements : List Node) :
    Relists (scope head was) statements (scope head statements) where
  kind := rfl
  list := statements?_scope head statements
  written := field?_statements head statements
  others _ other := field?_scope_congr head was statements other

end Node

/-- The edit of a scope whose list was scanned, which gives a copy if there was a change. -/
def Edit.ofScan (head : ScopeHead Revision) (statements : List Node) :
    (copy : Option (List Node)) → Edit Node
  | some walked => .fresh (.scope head.now walked)
  | none => if head.isFresh then .fresh (.scope head.now statements) else .kept

namespace Gather

/-! ### What an action returns -/

def Returns (act : Gather α) (P : α → Prop) : Prop := ∀ p a q, act.run p = .ok (a, q) → P a

section Returns

variable {α β ν : Type} {act : Gather α} {P : α → Prop}

theorem returns_pure {a : α} (known : P a) : Returns (pure a) P := by
  rintro p b q ⟨⟩
  exact known

/-- An action that goes on after another one returned. -/
theorem exists_of_run_bind {next : α → Gather β} {p q : Progress} {b : β}
    (ran : (act >>= next).run p = .ok (b, q)) :
    ∃ a between, act.run p = .ok (a, between) ∧ (next a).run between = .ok (b, q) := by
  rw [StateT.run_bind] at ran
  cases first : act.run p with
  | error error =>
    rw [first] at ran
    contradiction
  | ok outcome =>
    rw [first] at ran
    exact ⟨outcome.1, outcome.2, rfl, ran⟩

theorem returns_bind {next : α → Gather β} {Q : β → Prop} (returns : ∀ a, Returns (next a) Q) :
    Returns (act >>= next) Q := by
  intro p b q ran
  obtain ⟨a, between, -, rest⟩ := exists_of_run_bind ran
  exact returns a between b q rest

theorem returns_mapM {f : ν → Gather α} {R : ν → α → Prop} {xs : List ν}
    (returns : ∀ x ∈ xs, Returns (f x) (R x)) : Returns (xs.mapM f) (List.Forall₂ R xs) := by
  induction xs with
  | nil => exact returns_pure .nil
  | cons x xs ih =>
    obtain ⟨first, others⟩ := List.forall_mem_cons.mp returns
    intro p ys q ran
    rw [List.mapM_cons] at ran
    obtain ⟨y, between, one, ran⟩ := exists_of_run_bind ran
    obtain ⟨rest, _, more, done⟩ := exists_of_run_bind ran
    cases done
    exact .cons (first p y between one) (ih others between rest q more)

/-- What follows an action matters only for what the action may return. -/
theorem bind_congr_of_returns {f g : α → Gather β} (returns : Returns act P)
    (same : ∀ a, P a → f a = g a) : act >>= f = act >>= g := by
  apply StateT.ext
  intro p
  rw [StateT.run_bind, StateT.run_bind]
  cases ran : act.run p with
  | error error => rfl
  | ok outcome =>
    change (f outcome.1).run outcome.2 = (g outcome.1).run outcome.2
    rw [same outcome.1 (returns p outcome.1 outcome.2 ran)]

end Returns

/-- An enum is replaced, and any other statement is revised at its own place. -/
def Revises : Segment → Revision → Prop
  | .pinned s, r | .plain s, r => r.was = s
  | .enum _ _, r => r.isFresh

variable (visit : Node → Gather (Edit Node))

theorem returns_segment (g : Segment) :
    Returns (segment visit g) fun walked => Revises g walked.revision := by
  cases g with
  | pinned s => exact returns_pure rfl
  | plain s =>
    simp only [segment, Revision.ofVisit, bind_assoc, pure_bind]
    exact returns_bind fun e => returns_pure rfl
  | enum anchor c =>
    exact returns_bind fun moved => returns_bind fun statement => returns_bind fun _ =>
      returns_pure rfl

/-- A list of which nothing was replaced is the list that it was. -/
theorem map_now_of_revises {statements : List Node} {segments : List Segment}
    (cut : Segmented statements segments) {revisions : List Revision}
    (revises : List.Forall₂ Revises segments revisions)
    (unchanged : revisions.any Revision.isFresh = false) :
    revisions.map Revision.now = statements := by
  have stays (r : Revision) (kept : r.isFresh = false) : r.now = r.was := by
    rw [Revision.now, Edit.eq_kept_of_isFresh kept, Edit.applyTo_kept]
  induction cut generalizing revisions with
  | nil =>
    cases revises
    rfl
  | pinned s _ _ ih | plain s _ _ _ ih =>
    obtain _ | ⟨first, others⟩ := revises
    obtain ⟨kept, rest⟩ := Bool.or_eq_false_iff.mp unchanged
    rw [List.map_cons, stays _ kept, first, ih others rest]
  | enum c _ _ _ =>
    obtain _ | ⟨first, others⟩ := revises
    obtain ⟨kept, -⟩ := Bool.or_eq_false_iff.mp unchanged
    exact absurd (first.symm.trans kept) Bool.noConfusion

/-! ### Scopes -/

/-- A scope is visited by the scan of its list, behind the test of a case. -/
theorem layer_scope (head : ScopeHead Node) (statements : List Node) :
    layer visit (.scope head statements) = (do
      let head ← Gather.head visit head
      let copy ← scan visit statements
      return .ofScan head statements copy) := by
  simp only [layer, scan_eq, list, bind_assoc, pure_bind]
  congr 1
  funext head
  refine bind_congr_of_returns (returns_mapM fun g _ => returns_segment visit g) ?_
  intro walked outcome
  have revises := List.forall₂_map_right_iff.mpr outcome
  generalize walked.map Walked.revision = revisions at revises ⊢
  congr 1
  rw [Edit.ofScope, extended, List.nil_append]
  cases changed : revisions.any Revision.isFresh with
  | true => simp [Edit.ofScan]
  | false =>
    have same := map_now_of_revises (Segment.segmented_ofList statements) revises changed
    simp [Edit.ofScan, same]

/-- A list is found in every node of a scope kind, and it takes another one. -/
theorem dispatch_eq_layer (fallback : Node → Gather (Edit Node)) (n : Node) :
    dispatch fallback visit n = layer visit n := by
  cases n with
  | scope head statements =>
    rw [layer_scope, dispatch, if_pos (Node.isScope_kind.mpr ⟨head, statements, rfl⟩)]
    cases head with
    | caseOf test =>
      simp only [dispatchScope, Node.statements?_scope, Gather.head, bind_assoc, pure_bind]
      congr 1
      funext e
      congr 1
      funext copy
      cases e <;> cases copy <;> rfl
    | _ =>
      simp only [dispatchScope, Node.statements?_scope, Gather.head, pure_bind]
      congr 1
      funext copy
      cases copy <;> rfl
  | _ => rfl

/-- No visit of a tree falls back on anything. -/
theorem dispatchWithin_eq_node (fallback : Node → Gather (Edit Node)) (depth : Nat) :
    dispatchWithin fallback depth = node depth := by
  induction depth with
  | zero => rfl
  | succ depth ih =>
    funext n
    rw [dispatchWithin, ih, dispatch_eq_layer, node]

end Gather

namespace Node

/-- Access to statement lists is a lens over the scopes. The kind of a node, its list, a list put
into it and the list in its written form are there for the same nodes. A scope with another list is
that scope in all but the list; its own list gives it back, and of two lists the second one counts.
So whatever a visit would fall back on for lack of a list, it does the same, and every list that
came out of the scan changed is that of the node which the visit gives. -/
theorem statement_list_lens (n : Node) :
    (n.statements?.isSome ↔ n.kind.isScope) ∧
    ((n.field? "statements").isSome ↔ n.kind.isScope) ∧
    (∀ statements, (n.withStatements? statements).isSome ↔ n.kind.isScope) ∧
    (∀ own, n.statements? = some own → n.withStatements? own = some n) ∧
    (∀ first m, n.withStatements? first = some m → n.Relists first m ∧
      ∀ second, m.withStatements? second = n.withStatements? second) ∧
    (∀ fallback depth, Gather.dispatchWithin fallback depth n = Gather.node depth n) ∧
    ∀ head statements, n = .scope head statements → ∀ depth, Gather.node (depth + 1) n = (do
      let head ← Gather.head (Gather.node depth) head
      let copy ← Gather.scan (Gather.node depth) statements
      return .ofScan head statements copy) := by
  refine ⟨?_, ?_, ?_, ?_, ?_, ?_, ?_⟩
  · exact n.isSome_statements?_iff
  · rw [isSome_field?_iff, List.mem_cons, or_iff_right (by decide), statements_mem_fields_iff]
  · exact n.isSome_withStatements?_iff
  · intro own found
    obtain ⟨head, rfl⟩ := statements?_eq_some.mp found
    exact withStatements?_scope head own own
  · intro first m put
    obtain ⟨head, was, rfl, rfl⟩ := withStatements?_eq_some.mp put
    exact ⟨relists_scope head was first, fun second => by simp⟩
  · intro fallback depth
    rw [Gather.dispatchWithin_eq_node]
  · rintro head statements rfl depth
    exact Gather.layer_scope (Gather.node depth) head statements

def clause : Node := .scope (.caseOf (.numericLiteral "1")) [.breakStatement none]

/-- Its list is put back, emptied and filled again, and its visit scans the list. -/
theorem statement_list_lens_clause : ∃ emptied,
    clause.withStatements? [.breakStatement none] = some clause ∧
    clause.withStatements? [] = some emptied ∧ clause.Relists [] emptied ∧
    emptied.withStatements? [.emptyStatement] = clause.withStatements? [.emptyStatement] ∧
    Gather.node 2 clause = (do
      let head ← Gather.head (Gather.node 1) (.caseOf (.numericLiteral "1"))
      let copy ← Gather.scan (Gather.node 1) [.breakStatement none]
      return .ofScan head [.breakStatement none] copy) := by
  obtain ⟨-, -, -, back, put, -, walked⟩ := clause.statement_list_lens
  obtain ⟨relists, again⟩ := put [] _ rfl
  exact ⟨_, back _ rfl, rfl, relists, again _, walked _ _ rfl 1⟩

end Node
end PureEnum
