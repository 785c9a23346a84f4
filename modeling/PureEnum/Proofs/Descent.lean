import PureEnum.Enum.Walk
import PureEnum.Proofs.Rebuild
import PureEnum.Proofs.Subtrees

/-! Descent: walks of whole trees, for effects of any kind. A level visits what its node hands on
and nothing else, so two levels agree where their visits do, also across two kinds of effects. All
that is handed on is lower than the node, so a walk may go on by itself, without a bound. -/
namespace PureEnum

/-- A relation between actions of two kinds that holds of whatever is put together in the same way
from related parts. -/
structure Correspondence (m n : Type → Type) [Monad m] [Monad n] where
  rel {α : Type} : m α → n α → Prop
  pure {α : Type} (a : α) : rel (pure a) (pure a)
  bind {α β : Type} {x : m α} {y : n α} {f : α → m β} {g : α → n β} :
    rel x y → (∀ a, rel (f a) (g a)) → rel (x >>= f) (y >>= g)

namespace Correspondence

variable {m n : Type → Type} [Monad m] [Monad n] {κ μ ν : Type}

def same (m : Type → Type) [Monad m] : Correspondence m m where
  rel := Eq
  pure _ := rfl
  bind first next := by rw [first, funext next]

theorem map (R : Correspondence m n) {x : m ν} {y : n ν} (related : R.rel x y) (f : ν → μ) :
    R.rel (x >>= fun a => Pure.pure (f a)) (y >>= fun a => Pure.pure (f a)) :=
  R.bind related fun a => R.pure (f a)

variable (R : Correspondence m n) {visit : Node → m (Edit Node)} {other : Node → n (Edit Node)}

theorem ofVisit {c : Node} (related : R.rel (visit c) (other c)) :
    R.rel (Revision.ofVisit visit c) (Revision.ofVisit other c) := R.map related (Revision.mk c)

theorem head {scopeHead : ScopeHead Node}
    (related : ∀ c ∈ scopeHead.children, R.rel (visit c) (other c)) :
    R.rel (Walk.head visit scopeHead) (Walk.head other scopeHead) := by
  cases scopeHead with
  | caseOf test =>
    exact R.map (related test List.mem_cons_self) fun e => ScopeHead.caseOf (Revision.mk test e)
  | _ => exact R.pure _

variable [LawfulMonad m] [LawfulMonad n]

theorem mapM {f : ν → m μ} {g : ν → n μ} {xs : List ν} (related : ∀ x ∈ xs, R.rel (f x) (g x)) :
    R.rel (xs.mapM f) (xs.mapM g) := by
  induction xs with
  | nil =>
    rw [List.mapM_nil, List.mapM_nil]
    exact R.pure []
  | cons x xs ih =>
    obtain ⟨first, others⟩ := List.forall_mem_cons.mp related
    rw [List.mapM_cons, List.mapM_cons]
    exact R.bind first fun y => R.map (ih others) (y :: ·)

theorem yields {cs : List ν} {rule : Rule ν μ κ} {P : List μ → κ → Prop}
    (yields : Yields cs rule P) {f : ν → m μ} {g : ν → n μ}
    (related : ∀ c ∈ cs, R.rel (f c) (g c)) : R.rel (rule m f) (rule n g) := by
  obtain ⟨value, -, ran⟩ := yields
  rw [ran m f, ran n g, map_eq_pure_bind, map_eq_pure_bind]
  exact R.map (R.mapM related) value

theorem run {r : Run Node} (related : ∀ c ∈ r.parts, R.rel (visit c) (other c)) :
    R.rel (r.traverse (Revision.ofVisit visit)) (r.traverse (Revision.ofVisit other)) := by
  cases r with
  | wrapper call => exact R.map (R.ofVisit (related call List.mem_cons_self)) Run.wrapper
  | flat members => exact R.map (R.mapM fun c member => R.ofVisit (related c member)) Run.flat
  | fixed members => exact R.map (R.mapM fun c member => R.ofVisit (related c member)) Run.fixed

section Enclosing

variable {enclose : Candidate → m Node} {build : Candidate → n Node}
variable (encloses : ∀ c, R.rel (enclose c) (build c))

include encloses

theorem segment {g : Segment} (related : ∀ c ∈ g.parts, R.rel (visit c) (other c)) :
    R.rel (Walk.segment enclose visit g) (Walk.segment build other g) := by
  cases g with
  | pinned s => exact R.pure _
  | plain s => exact R.map (R.ofVisit (related s List.mem_cons_self)) (Walked.mk · [])
  | enum anchor c =>
    exact R.bind (R.run related) fun moved =>
      R.map (encloses { c with run := moved.map Revision.now }) fun statement =>
        Walked.mk ⟨anchor, .fresh statement⟩ moved.parts

theorem list {statements : List Node}
    (related : ∀ g ∈ Segment.ofList statements, ∀ c ∈ g.parts, R.rel (visit c) (other c)) :
    R.rel (Walk.list enclose visit statements) (Walk.list build other statements) :=
  R.map (R.mapM fun g member => R.segment encloses (related g member)) (List.map Walked.revision)

/-- Levels correspond when the visits of what is handed on do. -/
theorem node {c : Node} (related : ∀ h ∈ c.handed, R.rel (visit h) (other h)) :
    R.rel (Walk.node enclose visit c) (Walk.node build other c) := by
  rcases c.scope_or with ⟨scopeHead, statements, rfl⟩ | own
  · obtain ⟨inHead, inParts⟩ := List.forall_mem_append.mp related
    have list := R.list encloses (List.forall_mem_flatMap.mp inParts)
    exact R.bind (R.head inHead) fun revised => R.map list (Edit.ofScope revised)
  · rw [Node.handed_of_not_scope own] at related
    have revised := R.yields c.yields_reviseChildren related
    cases c with
    | scope => simp at own
    | _ => exact revised

end Enclosing

end Correspondence

namespace Walk

variable {m : Type → Type} [Monad m]

/-- Walks a tree. What is done around the level of a node may also be to leave the level out. -/
def descend (enclose : Candidate → m Node) (around : Node → m (Edit Node) → m (Edit Node))
    (n : Node) : m (Edit Node) :=
  -- whatever a node hands on is lower, so the test only shows that the walk ends
  around n (node enclose
    (fun c => if c.height < n.height then descend enclose around c else return .kept) n)
termination_by n.height

theorem descend_eq [LawfulMonad m] (enclose : Candidate → m Node)
    (around : Node → m (Edit Node) → m (Edit Node)) (n : Node) :
    descend enclose around n = around n (node enclose (descend enclose around) n) := by
  rw [descend]
  congr 1
  refine (Correspondence.same m).node (fun _ => rfl) fun c handed => ?_
  exact if_pos (Gather.height_lt_of_mem_handed handed)

end Walk

namespace Gather

def enclose (c : Candidate) : Gather Node := do
  let statement ← (c.enclosed : Except WrapError Node)
  noteEnclosed c statement
  return statement

theorem segment_eq (visit : Node → Gather (Edit Node)) (g : Segment) :
    segment visit g = Walk.segment enclose visit g := by
  cases g with
  | pinned | plain => rfl
  | enum anchor c =>
    simp only [segment, Walk.segment, enclose, bind_assoc, pure_bind]

theorem list_eq (visit : Node → Gather (Edit Node)) (statements : List Node) :
    list visit statements = Walk.list enclose visit statements := by
  rw [list, walk, Walk.list, funext (segment_eq visit)]

theorem layer_eq (visit : Node → Gather (Edit Node)) (n : Node) :
    layer visit n = Walk.node enclose visit n := by
  cases n with
  | scope scopeHead statements =>
    rw [layer, Walk.node, list_eq]
    cases scopeHead <;> rfl
  | _ => rfl

/-- Gathering without a limit: every level in turn, however deep the tree is. -/
def free : Node → Gather (Edit Node) := Walk.descend enclose fun _ level => level

theorem free_eq (n : Node) : free n = layer free n := by
  rw [layer_eq, free]
  exact Walk.descend_eq enclose _ n

/-- There is one way to gather without a limit. -/
theorem eq_free_iff (visit : Node → Gather (Edit Node)) :
    (∀ n, visit n = layer visit n) ↔ visit = free := by
  constructor
  · intro levels
    funext n
    induction n using induction_on_handed with
    | step n ih =>
      rw [levels n, free_eq, layer_eq, layer_eq]
      exact (Correspondence.same Gather).node (fun _ => rfl) ih
  · rintro rfl
    exact free_eq

/-- A visit that does not run out of room is one without a limit. -/
theorem Reaches.node_eq_free {depth : Nat} {n : Node} (reaches : Reaches depth n) :
    node depth n = free n := by
  induction depth generalizing n with
  | zero => exact reaches.elim
  | succ depth ih =>
    rw [free_eq, node, layer_eq, layer_eq]
    exact (Correspondence.same Gather).node (fun _ => rfl) fun c handed => ih (reaches c handed)

/-- The parts of a list that is walked without meeting the limit. -/
theorem reaches_parts {depth : Nat} {statements : List Node}
    (inside : ∀ event ∈ (Segment.ofList statements).flatMap
      (Segment.events (result depth) (events depth)), event.isEnclosed) :
    ∀ g ∈ Segment.ofList statements, ∀ c ∈ g.parts, Reaches depth c := by
  have block : Reaches (depth + 1) (.scope .block statements) := (reaches_iff _ _).mpr inside
  exact List.forall_mem_flatMap.mp (List.forall_mem_append.mp block).2

theorem list_eq_free {depth : Nat} {statements : List Node}
    (reaches : ∀ g ∈ Segment.ofList statements, ∀ c ∈ g.parts, Reaches depth c) :
    list (node depth) statements = list free statements := by
  rw [list_eq, list_eq]
  exact (Correspondence.same Gather).list (fun _ => rfl) fun g member c part =>
    (reaches g member c part).node_eq_free

end Gather
end PureEnum
