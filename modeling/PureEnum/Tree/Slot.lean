import PureEnum.Tree.Node

/-! Slots: what a field of a node may hold. A slot's content is stated over any type of subtrees,
so that one rule per slot serves every field of every kind. The subtrees of a content come in
the order in which they stand. -/
namespace PureEnum

/-- A content without structure of its own. -/
inductive Cell where
  | node | node? | text | flag
  deriving DecidableEq, Repr

inductive Slot where
  | cell (cell : Cell)
  | text? | texts | nodes | nodes? | modifiers | keyword | comment | declarations | parameters
  deriving DecidableEq, Repr

namespace Slot

abbrev node : Slot := cell .node
abbrev node? : Slot := cell .node?
abbrev text : Slot := cell .text
abbrev flag : Slot := cell .flag

end Slot

abbrev Cell.Content (ν : Type) : Cell → Type
  | node => ν
  | node? => Option ν
  | text => String
  | flag => Bool

abbrev Slot.Content (ν : Type) : Slot → Type
  | cell c => c.Content ν
  | text? => Option String
  | texts => List String
  | nodes => List ν
  | nodes? => Option (List ν)
  | modifiers => Modifiers
  | keyword => Keyword
  | comment => Comment
  | declarations => List (Declaration ν)
  | parameters => List (Parameter ν)

abbrev Row (C : σ → Type) : List (String × σ) → Type
  | [] => Unit
  | field :: fields => C field.2 × Row C fields

variable {ν μ : Type} {m : Type → Type} [Monad m]

namespace Declaration

def children (d : Declaration ν) : List ν := d.name :: d.initializer.toList

def map (f : ν → μ) (d : Declaration ν) : Declaration μ := ⟨f d.name, d.initializer.map f⟩

def traverse (f : ν → m μ) (d : Declaration ν) : m (Declaration μ) :=
  return ⟨← f d.name, ← d.initializer.mapM f⟩

/-- A map that may use that its argument is one of the subtrees. -/
def mapMem (d : Declaration ν) (f : (c : ν) → c ∈ d.children → μ) : Declaration μ :=
  ⟨f d.name (by simp [children]),
    d.initializer.pmap f fun c h => by simp [children, h]⟩

@[simp] theorem mapMem_eq_map (f : ν → μ) (d : Declaration ν) :
    d.mapMem (fun c _ => f c) = d.map f := by
  cases d; simp [mapMem, map, Option.pmap_eq_map]

end Declaration

namespace Parameter

def children (p : Parameter ν) : List ν := p.name :: p.initializer.toList

def map (f : ν → μ) (p : Parameter ν) : Parameter μ := ⟨f p.name, p.initializer.map f, p.rest⟩

def traverse (f : ν → m μ) (p : Parameter ν) : m (Parameter μ) :=
  return ⟨← f p.name, ← p.initializer.mapM f, p.rest⟩

def mapMem (p : Parameter ν) (f : (c : ν) → c ∈ p.children → μ) : Parameter μ :=
  ⟨f p.name (by simp [children]),
    p.initializer.pmap f fun c h => by simp [children, h], p.rest⟩

@[simp] theorem mapMem_eq_map (f : ν → μ) (p : Parameter ν) :
    p.mapMem (fun c _ => f c) = p.map f := by
  cases p; simp [mapMem, map, Option.pmap_eq_map]

end Parameter

namespace Cell

def children : (c : Cell) → c.Content ν → List ν
  | node, x => [x]
  | node?, x => x.toList
  | text, _ | flag, _ => []

def map (f : ν → μ) : (c : Cell) → c.Content ν → c.Content μ
  | node, x => f x
  | node?, x => x.map f
  | text, x => x
  | flag, x => x

def traverse (f : ν → m μ) : (c : Cell) → c.Content ν → m (c.Content μ)
  | node, x => f x
  | node?, x => x.mapM f
  | text, x => pure x
  | flag, x => pure x

end Cell

namespace Slot

def children : (s : Slot) → s.Content ν → List ν
  | cell c, x => c.children x
  | nodes, xs => xs
  | nodes?, xs => xs.getD []
  | declarations, ds => ds.flatMap Declaration.children
  | parameters, ps => ps.flatMap Parameter.children
  | text?, _ | texts, _ | modifiers, _ | keyword, _ | comment, _ => []

def map (f : ν → μ) : (s : Slot) → s.Content ν → s.Content μ
  | cell c, x => c.map f x
  | nodes, xs => xs.map f
  | nodes?, xs => xs.map (List.map f)
  | declarations, ds => ds.map (Declaration.map f)
  | parameters, ps => ps.map (Parameter.map f)
  | text?, x => x
  | texts, x => x
  | modifiers, x => x
  | keyword, x => x
  | comment, x => x

/-- Effects run once for each subtree, in order, and the shape stays. -/
def traverse (f : ν → m μ) : (s : Slot) → s.Content ν → m (s.Content μ)
  | cell c, x => c.traverse f x
  | nodes, xs => xs.mapM f
  | nodes?, xs => xs.mapM (List.mapM f)
  | declarations, ds => ds.mapM (Declaration.traverse f)
  | parameters, ps => ps.mapM (Parameter.traverse f)
  | text?, x => pure x
  | texts, x => pure x
  | modifiers, x => pure x
  | keyword, x => pure x
  | comment, x => pure x

def mapMem : (s : Slot) → (x : s.Content ν) → ((c : ν) → c ∈ s.children x → μ) → s.Content μ
  | cell .node, x, f => f x (by simp [children, Cell.children])
  | cell .node?, x, f => x.pmap f fun c h => by simpa [children, Cell.children] using h
  | cell .text, x, _ => x
  | cell .flag, x, _ => x
  | nodes, xs, f => xs.pmap f fun _ h => h
  | nodes?, none, _ => none
  | nodes?, some xs, f => some (xs.pmap f fun _ h => h)
  | declarations, ds, f => ds.attach.map fun d =>
      d.1.mapMem fun c h => f c (List.mem_flatMap.mpr ⟨d.1, d.2, h⟩)
  | parameters, ps, f => ps.attach.map fun p =>
      p.1.mapMem fun c h => f c (List.mem_flatMap.mpr ⟨p.1, p.2, h⟩)
  | text?, x, _ => x
  | texts, x, _ => x
  | modifiers, x, _ => x
  | keyword, x, _ => x
  | comment, x, _ => x

theorem mapMem_eq_map (f : ν → μ) (s : Slot) (x : s.Content ν) :
    s.mapMem x (fun c _ => f c) = s.map f x := by
  cases s with
  | cell c => cases c <;> simp [mapMem, map, Cell.map, Option.pmap_eq_map]
  | nodes => exact List.pmap_eq_map ..
  | nodes? => cases x with
    | none => rfl
    | some xs => exact congrArg some (List.pmap_eq_map ..)
  | declarations => simp [mapMem, map]
  | parameters => simp [mapMem, map]
  | _ => rfl

end Slot
end PureEnum
