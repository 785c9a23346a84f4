import PureEnum.Limits
import PureEnum.Tree.Query

/-! Member statements of an enum `X`: assignments to a member of `X`, by name or by key. What is
assigned is never looked at. -/
namespace PureEnum.Enum

def target? (s : Node) : Option Node := do
  let (target, _) ← (← s.evaluated?).assignment?
  return target

/-- The key in `X[_]`. -/
def keyOf? (name : String) : Node → Option Node
  | .elementAccessExpression owner key => if owner.isNamed name then some key else none
  | _ => none

def isPropertyOf (name : String) : Node → Bool
  | .propertyAccessExpression owner _ => owner.isNamed name
  | _ => false

/-- Whether a statement is `X._ = _;`. -/
def setsProperty (name : String) (s : Node) : Bool := (target? s).any (isPropertyOf name)

/-- Whether a statement is `X[_] = _;`. -/
def setsElement (name : String) (s : Node) : Bool := ((target? s).bind (keyOf? name)).isSome

/-- Whether a statement is `X[X._] = _;`, an element whose key is looked up by name. -/
def setsNameLookup (name : String) (s : Node) : Bool :=
  ((target? s).bind (keyOf? name)).any (isPropertyOf name)

/-- Whether a statement is `X[X[_] = _] = _;`, a member and its reverse mapping in one. -/
def setsReverse (name : String) (s : Node) : Bool :=
  ((target? s).bind (keyOf? name)).any fun key =>
    (key.assignment?.bind fun (inner, _) => keyOf? name inner).isSome

inductive Access where
  | property
  | element

def access? (name : String) (s : Node) : Option Access :=
  match target? s with
  | some (.propertyAccessExpression owner _) => if owner.isNamed name then some .property else none
  | some (.elementAccessExpression owner _) => if owner.isNamed name then some .element else none
  | _ => none

/-- Collects members up to the first statement that is none, or that is a property behind an
element. The flag says whether there was an element. -/
def collectFlat (name : String) (members : Array Node) (seen : Bool) :
    List Node → Array Node × Bool
  | [] => (members, seen)
  | s :: statements =>
    match access? name s with
    | some .property =>
      if seen then (members, seen) else collectFlat name (members.push s) seen statements
    | some .element => collectFlat name (members.push s) true statements
    | none => (members, seen)

/-- Property assignments and then element assignments. Without any of the latter, there are no
members. -/
def flatMembers (name : String) (statements : List Node) : List Node :=
  let (members, seen) := collectFlat name (.emptyWithCapacity usualMemberCount) false statements
  if seen then members.toList else []

/-- The longest run of elements whose keys are looked up by name. -/
def fixedMembers (name : String) (statements : List Node) : List Node :=
  statements.takeWhile (setsNameLookup name)

/-- The call in `(function (X) { … })(…);` where every statement of the body is a member with its
reverse mapping. Neither the arguments nor the modifiers of the function are looked at. -/
def wrapperCall? (name : String) (s : Node) : Option Node := do
  let call := (← s.evaluated?).skipParens
  match call with
  | .callExpression (.parenthesizedExpression (.functionExpression _ _ [parameter] body)) _ =>
    let statements ← body.statements?
    if !parameter.rest && parameter.name.isNamed name && statements.all (setsReverse name) then
      some call
    else none
  | _ => none

section Collecting

variable {name : String} {s : Node}

theorem access?_eq_property : access? name s = some .property ↔ setsProperty name s := by
  rw [access?, setsProperty]
  cases target? s with
  | none => simp
  | some target => cases target <;> simp [isPropertyOf]

theorem access?_eq_element : access? name s = some .element ↔ setsElement name s := by
  rw [access?, setsElement]
  cases target? s with
  | none => simp
  | some target => cases target <;> simp [keyOf?]

theorem collectFlat_seen (members : Array Node) (statements : List Node) :
    collectFlat name members true statements =
      (members ++ (statements.takeWhile (setsElement name)).toArray, true) := by
  induction statements generalizing members with
  | nil => simp [collectFlat]
  | cons s statements ih =>
    have element := @access?_eq_element name s
    rw [collectFlat]
    -- a property ends the run here, as a statement does that is no member
    split <;> simp_all

theorem collectFlat_unseen (members : Array Node) (statements : List Node) :
    collectFlat name members false statements =
      let properties := statements.takeWhile (setsProperty name)
      let elements := (statements.dropWhile (setsProperty name)).takeWhile (setsElement name)
      (members ++ (properties ++ elements).toArray, !elements.isEmpty) := by
  induction statements generalizing members with
  | nil => simp [collectFlat]
  | cons s statements ih =>
    have property := @access?_eq_property name s
    have element := @access?_eq_element name s
    rw [collectFlat]
    split <;> simp_all [collectFlat_seen]

theorem flatMembers_eq (name : String) (statements : List Node) :
    flatMembers name statements =
      let properties := statements.takeWhile (setsProperty name)
      let elements := (statements.dropWhile (setsProperty name)).takeWhile (setsElement name)
      if elements.isEmpty then [] else properties ++ elements := by
  simp only [flatMembers, collectFlat_unseen]
  cases ((statements.dropWhile (setsProperty name)).takeWhile (setsElement name)).isEmpty with
  | true => rfl
  | false => simp

end Collecting

end PureEnum.Enum
