import PureEnum.Tree.Layer

/-! Edits: what a rule does to a node. A node that a rule leaves alone is kept, which says that
it is the very node it was; a fresh node takes its place, equal to it or not. One-level revision
keeps a node exactly when all its direct subtrees are kept. -/
namespace PureEnum

inductive Edit (α : Type) where
  | kept
  | fresh (value : α)

namespace Edit

def isFresh : Edit α → Bool
  | kept => false
  | fresh _ => true

def applyTo (was : α) : Edit α → α
  | kept => was
  | fresh value => value

@[simp] theorem applyTo_kept {was : α} : applyTo was kept = was := rfl
@[simp] theorem applyTo_fresh {was value : α} : applyTo was (fresh value) = value := rfl

theorem eq_kept_of_isFresh {e : Edit α} (h : e.isFresh = false) : e = kept := by
  cases e <;> simp_all [isFresh]

end Edit

structure Revision where
  was : Node
  edit : Edit Node

namespace Revision

def now (r : Revision) : Node := r.edit.applyTo r.was

def isFresh (r : Revision) : Bool := r.edit.isFresh

def ofVisit [Monad m] (visit : Node → m (Edit Node)) (n : Node) : m Revision :=
  return ⟨n, ← visit n⟩

end Revision

def Layer.revised (l : Layer Revision) : Edit Node :=
  if l.children.any Revision.isFresh then .fresh (l.map Revision.now).node else .kept

/-- Visits the direct subtrees once each, in order. An effect of the visitor that stops, such as
an error, stops the revision there. -/
def Node.reviseChildren [Monad m] (visit : Node → m (Edit Node)) (n : Node) : m (Edit Node) :=
  return Layer.revised (← n.layer.traverse (Revision.ofVisit visit))

end PureEnum
