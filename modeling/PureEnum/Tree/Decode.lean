import PureEnum.Tree.Decode.Error
import PureEnum.Tree.Layer
import PureEnum.Tree.Record

/-! Reading a tree. A node or a record is read from an object, whose fields may come in any order
and beside unknown ones, or from an array of all its fields in their order, for a node after its
kind. In an object an option may be left out; in an array nothing may. One defect anywhere spoils
the whole tree. Inside a node there are further ways to write a kind and a keyword: a kind by its
number, and a keyword with an empty object in place of null. -/
namespace PureEnum

/-- Where a value stands: on its own or within a node. -/
inductive Place where
  | alone | within
  deriving DecidableEq, Repr

namespace Json

def readText : Json → Read String
  | str value => .ok value
  | j => .error (.wrongType j)

def readFlag : Json → Read Bool
  | bool value => .ok value
  | j => .error (.wrongType j)

def readList (each : Json → Read α) : Json → Read (List α)
  | arr items => items.mapM each
  | j => .error (.wrongType j)

def readOption (each : Json → Read α) : Json → Read (Option α)
  | null => .ok none
  | j => some <$> each j

def readModifiers (j : Json) : Read Modifiers := do
  match Modifiers.ofText (← j.readText) with
  | .ok m => .ok m
  | .error e => .error (.badFlags e)

/-- Null, which holds nothing; within a node an empty object passes for it. -/
def isUnit (place : Place) (j : Json) : Bool := j = null || (place = .within && j = obj [])

end Json

def readVariant (ofName? : String → Option α) (name : String) : Read α :=
  match ofName? name with
  | some x => .ok x
  | none => .error (.unknownVariant name)

/-- A kind by its name; within a node also by its number in the order of all kinds. -/
def Kind.ofJson (place : Place) : Json → Read Kind
  | .str name => readVariant ofName? name
  | .integer n =>
    if place = .within ∧ 0 ≤ n then
      match all[n.toNat]? with
      | some kind => .ok kind
      | none => .error (.wrongValue (.integer n))
    else .error (.wrongType (.integer n))
  | j => .error (.wrongType j)

@[simp] theorem Kind.ofJson_name (place : Place) (kind : Kind) :
    ofJson place (.str kind.name) = .ok kind := by simp [ofJson, readVariant]

/-- A keyword by its name, which may also be the only field of an object that holds nothing else. -/
def Keyword.ofJson (place : Place) : Json → Read Keyword
  | .str name => readVariant ofName? name
  | .obj [(name, j)] => do
    let keyword ← readVariant ofName? name
    if j.isUnit place then return keyword else .error (.wrongType j)
  | .obj fields => .error (.wrongValue (.obj fields))
  | j => .error (.wrongType j)

@[simp] theorem Keyword.ofJson_name (place : Place) (keyword : Keyword) :
    ofJson place (.str keyword.name) = .ok keyword := by simp [ofJson, readVariant]

inductive Source where
  | named (fields : List (String × Json))
  | listed (items : List Json)

namespace Row

/-- Reads each field where an object has it; `absent` gives what a field holds that is left out. -/
def readNamed {C : σ → Type} (each : (s : σ) → Json → Read (C s)) (absent : (s : σ) → Option (C s))
    (source : List (String × Json)) : (fields : List (String × σ)) → Read (Row C fields)
  | [] => .ok ()
  | (name, s) :: fields => do
    let x ← match source.lookup name with
      | some j => each s j
      | none => match absent s with
        | some x => .ok x
        | none => .error (.missingField name)
    return (x, ← readNamed each absent source fields)

/-- The array has exactly one item for each field. -/
def readListed {C : σ → Type} (each : (s : σ) → Json → Read (C s)) (count : Nat) :
    List Json → (fields : List (String × σ)) → Read (Row C fields)
  | [], [] => .ok ()
  | j :: items, (_, s) :: fields => do
    let x ← each s j
    return (x, ← readListed each count items fields)
  | [], _ :: _ | _ :: _, [] => .error (.wrongLength count)

def read {C : σ → Type} (each : (s : σ) → Json → Read (C s)) (absent : (s : σ) → Option (C s))
    (fields : List (String × σ)) : Source → Read (Row C fields)
  | .named source => readNamed each absent source fields
  | .listed items => readListed each items.length items fields

end Row

variable {ν : Type} (node : Json → Read ν)

namespace Cell

def read : (c : Cell) → Json → Read (c.Content ν)
  | .node, j => node j
  | node?, j => j.readOption node
  | text, j => j.readText
  | flag, j => j.readFlag

def absent : (c : Cell) → Option (c.Content ν)
  | node? => some none
  | .node | text | flag => none

def readRow (fields : List (String × Cell)) : Json → Read (Row (Content ν) fields)
  | .obj source => Row.read (read node) absent fields (.named source)
  | .arr items => Row.read (read node) absent fields (.listed items)
  | j => .error (.wrongType j)

end Cell

def Declaration.read (j : Json) : Read (Declaration ν) := ofRow <$> Cell.readRow node fields j

def Parameter.read (j : Json) : Read (Parameter ν) := ofRow <$> Cell.readRow node fields j

/-- A comment holds no nodes, so none is ever read. -/
def Comment.ofJson (j : Json) : Read Comment :=
  ofRow <$> Cell.readRow (fun j => (.error (.wrongType j) : Read Empty)) fields j

namespace Slot

def read : (s : Slot) → Json → Read (s.Content ν)
  | cell c, j => c.read node j
  | text?, j => j.readOption Json.readText
  | texts, j => j.readList Json.readText
  | nodes, j => j.readList node
  | nodes?, j => j.readOption (Json.readList node)
  | modifiers, j => j.readModifiers
  | keyword, j => Keyword.ofJson .within j
  | comment, j => Comment.ofJson j
  | declarations, j => j.readList (Declaration.read node)
  | parameters, j => j.readList (Parameter.read node)

def absent : (s : Slot) → Option (s.Content ν)
  | cell c => c.absent
  | text? | nodes? => some none
  | texts | nodes | modifiers | keyword | comment | declarations | parameters => none

end Slot

def Kind.read (place : Place) : Json → Read (Kind × Source)
  | .obj fields => match fields.lookup "kind" with
    | some j => return (← ofJson place j, .named fields)
    | none => .error (.missingField "kind")
  | .arr (j :: items) => return (← ofJson place j, .listed items)
  | .arr [] => .error (.missingField "kind")
  | j => .error (.wrongType j)

def Layer.read (place : Place) (j : Json) : Read (Layer ν) := do
  let (kind, source) ← Kind.read place j
  return ⟨kind, ← Row.read (Slot.read node) Slot.absent kind.fields source⟩

namespace Node

/-- Reads nodes that stand in at most `depth` arrays and objects, counting their own. The nodes
below the first stand within it. -/
def read : (depth : Nat) → Place → Json → Read Node
  | 0, _, j => .error (.wrongType j)
  | depth + 1, place, j => Layer.node <$> Layer.read (read depth .within) place j

def ofJson (place : Place) (j : Json) : Read Node := read (j.depth + 1) place j

end Node
end PureEnum
