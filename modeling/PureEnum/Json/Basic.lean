import PureEnum.Number.Double

/-! Data values: what a tree is written as and read from. An object keeps its fields in order
and is looked up by the first field of a name. Whole numbers and floating-point numbers are two
types of value, also where both stand for the same number. -/
namespace PureEnum

inductive Json where
  | null
  | bool (value : Bool)
  | integer (value : Int)
  | float (value : Double)
  | str (value : String)
  | arr (items : List Json)
  | obj (fields : List (String × Json))

namespace Json

mutual
def decEq : (a b : Json) → Decidable (a = b)
  | .null, b => match b with
    | .null => isTrue rfl
    | .bool _ | .integer _ | .float _ | .str _ | .arr _ | .obj _ => isFalse nofun
  | .bool x, b => match b with
    | .bool y => if h : x = y then isTrue (h ▸ rfl) else isFalse fun e => h (Json.bool.inj e)
    | .null | .integer _ | .float _ | .str _ | .arr _ | .obj _ => isFalse nofun
  | .integer x, b => match b with
    | .integer y => if h : x = y then isTrue (h ▸ rfl) else isFalse fun e => h (Json.integer.inj e)
    | .null | .bool _ | .float _ | .str _ | .arr _ | .obj _ => isFalse nofun
  | .float x, b => match b with
    | .float y => if h : x = y then isTrue (h ▸ rfl) else isFalse fun e => h (Json.float.inj e)
    | .null | .bool _ | .integer _ | .str _ | .arr _ | .obj _ => isFalse nofun
  | .str x, b => match b with
    | .str y => if h : x = y then isTrue (h ▸ rfl) else isFalse fun e => h (Json.str.inj e)
    | .null | .bool _ | .integer _ | .float _ | .arr _ | .obj _ => isFalse nofun
  | .arr xs, b => match b with
    | .arr ys => match decEqItems xs ys with
      | isTrue h => isTrue (h ▸ rfl)
      | isFalse h => isFalse fun e => h (Json.arr.inj e)
    | .null | .bool _ | .integer _ | .float _ | .str _ | .obj _ => isFalse nofun
  | .obj xs, b => match b with
    | .obj ys => match decEqFields xs ys with
      | isTrue h => isTrue (h ▸ rfl)
      | isFalse h => isFalse fun e => h (Json.obj.inj e)
    | .null | .bool _ | .integer _ | .float _ | .str _ | .arr _ => isFalse nofun

def decEqItems : (xs ys : List Json) → Decidable (xs = ys)
  | [], [] => isTrue rfl
  | [], _ :: _ | _ :: _, [] => isFalse nofun
  | x :: xs, y :: ys => match decEq x y, decEqItems xs ys with
    | isTrue h, isTrue t => isTrue (h ▸ t ▸ rfl)
    | isFalse h, _ => isFalse fun e => h (List.cons.inj e).1
    | _, isFalse t => isFalse fun e => t (List.cons.inj e).2

def decEqFields : (xs ys : List (String × Json)) → Decidable (xs = ys)
  | [], [] => isTrue rfl
  | [], _ :: _ | _ :: _, [] => isFalse nofun
  | (k, x) :: xs, (l, y) :: ys => match decEq x y, decEqFields xs ys with
    | isTrue h, isTrue t =>
      if g : k = l then isTrue (g ▸ h ▸ t ▸ rfl)
      else isFalse fun e => g (Prod.mk.inj (List.cons.inj e).1).1
    | isFalse h, _ => isFalse fun e => h (Prod.mk.inj (List.cons.inj e).1).2
    | _, isFalse t => isFalse fun e => t (List.cons.inj e).2
end

instance : DecidableEq Json := decEq

mutual
/-- How many arrays and objects stand around the innermost value. -/
def depth : Json → Nat
  | .arr items => depthItems items + 1
  | .obj fields => depthFields fields + 1
  | .null | .bool _ | .integer _ | .float _ | .str _ => 0

def depthItems : List Json → Nat
  | [] => 0
  | x :: xs => max x.depth (depthItems xs)

def depthFields : List (String × Json) → Nat
  | [] => 0
  | (_, x) :: xs => max x.depth (depthFields xs)
end

theorem depth_le_of_mem_items {x : Json} : {xs : List Json} → x ∈ xs → x.depth ≤ depthItems xs
  | y :: ys, h => by
    rw [depthItems]
    rcases List.mem_cons.mp h with rfl | h
    · exact Nat.le_max_left ..
    · exact Nat.le_trans (depth_le_of_mem_items h) (Nat.le_max_right ..)

end Json
end PureEnum
