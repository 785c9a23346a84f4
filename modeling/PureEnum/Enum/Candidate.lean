import PureEnum.Enum.Member

/-! Enums as compilers emit them: a variable statement, the anchor, and the run of statements
behind it that fill the object. How the anchor starts decides which of three shapes the run may
have. A run never reaches the end of its scope, since an enum is followed by what uses it. -/
namespace PureEnum

inductive Shape where
  | wrapped | flatIndexed | fixedCount
  deriving DecidableEq, Repr

def Shape.name : Shape → String
  | wrapped => "wrapped"
  | flatIndexed => "flat-indexed"
  | fixedCount => "fixed-count"

inductive Run (ν : Type) where
  /-- After `var X;`: a function is called that fills `X`. -/
  | wrapper (call : ν)
  /-- After `var X = {};`: members by name and then by key. -/
  | flat (members : List ν)
  /-- After `var X = { … };`: one element for each member of the literal. -/
  | fixed (members : List ν)

namespace Run

variable {ν μ : Type}

def shape : Run ν → Shape
  | wrapper _ => .wrapped
  | flat _ => .flatIndexed
  | fixed _ => .fixedCount

def length : Run ν → Nat
  | wrapper _ => 1
  | flat members | fixed members => members.length

/-- What moves into the statement built for a run. -/
def parts : Run ν → List ν
  | wrapper call => [call]
  | flat members | fixed members => members

def map (f : ν → μ) : Run ν → Run μ
  | wrapper call => wrapper (f call)
  | flat members => flat (members.map f)
  | fixed members => fixed (members.map f)

def traverse [Monad m] (f : ν → m μ) : Run ν → m (Run μ)
  | wrapper call => return wrapper (← f call)
  | flat members => return flat (← members.mapM f)
  | fixed members => return fixed (← members.mapM f)

def find? (name : String) (initializer : Option Node) (following : List Node) :
    Option (Run Node) :=
  match initializer with
  | none => do return wrapper (← Enum.wrapperCall? name (← following.head?))
  | some literal => do
    let properties ← literal.properties?
    if properties.isEmpty then
      let members := Enum.flatMembers name following
      if members.isEmpty then none else some (flat members)
    else
      let members := Enum.fixedMembers name following
      if members.length = properties.length then some (fixed members) else none

end Run

structure Candidate where
  name : String
  modifiers : Modifiers
  keyword : Keyword
  declaration : Declaration Node
  run : Run Node

namespace Candidate

def find? : List Node → Option Candidate
  | .variableStatement modifiers keyword [declaration] :: following => do
    let name ← declaration.name.identifier?
    let run ← Run.find? name declaration.initializer following
    if run.length < following.length then
      some ⟨name, modifiers, keyword, declaration, run⟩
    else none
  | _ => none

theorem length_lt_of_find? {s : Node} {following : List Node} {c : Candidate}
    (h : find? (s :: following) = some c) : c.run.length < following.length := by
  unfold find? at h
  split at h
  case h_1 heq =>
    obtain ⟨rfl, rfl⟩ := List.cons.inj heq
    simp only [Option.bind_eq_bind, Option.bind_eq_some_iff] at h
    obtain ⟨name, -, run, -, h⟩ := h
    split at h
    · obtain rfl := Option.some.inj h
      assumption
    · contradiction
  case h_2 => contradiction

/-- The enum anchored at an index of a statement list. -/
def at? (statements : List Node) (index : Nat) : Option Candidate := find? (statements.drop index)

def shape (c : Candidate) : Shape := c.run.shape

end Candidate
end PureEnum
