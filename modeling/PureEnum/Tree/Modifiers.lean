import PureEnum.Text.Blank
import PureEnum.Text.Hex

/-! Modifiers of a declaration: a set of eight flag bits, five of which have a name. The
written form names the flags; bits without a name are kept and written as one number. -/
namespace PureEnum

inductive Modifier where
  | exported | defaulted | declared | asynchronous | static
  deriving DecidableEq, Repr

namespace Modifier

/-- In the order of their bits, which is the order of the written form. -/
def all : List Modifier := [exported, defaulted, declared, asynchronous, static]

def mask : Modifier → BitVec 8
  | exported => 0x01
  | defaulted => 0x02
  | declared => 0x04
  | asynchronous => 0x08
  | static => 0x10

def name : Modifier → String
  | exported => "EXPORT"
  | defaulted => "DEFAULT"
  | declared => "DECLARE"
  | asynchronous => "ASYNC"
  | static => "STATIC"

def keyword : Modifier → String
  | exported => "export"
  | defaulted => "default"
  | declared => "declare"
  | asynchronous => "async"
  | static => "static"

/-- The order in which the keywords stand before a declaration. -/
def spoken : List Modifier := [exported, defaulted, declared, static, asynchronous]

end Modifier

structure Modifiers where
  bits : BitVec 8
  deriving DecidableEq, Repr

inductive FlagError where
  | empty | badHex | unnamed
  deriving DecidableEq, Repr

def FlagError.message : FlagError → String
  | empty => "encountered empty flag"
  | badHex => "invalid hex flag"
  | unnamed => "unrecognized named flag"

namespace Modifiers

def empty : Modifiers := ⟨0⟩

def union (a b : Modifiers) : Modifiers := ⟨a.bits ||| b.bits⟩

def contains (a b : Modifiers) : Bool := a.bits &&& b.bits == b.bits

def has (a : Modifiers) (m : Modifier) : Bool := a.contains ⟨m.mask⟩

def unnamed (a : Modifiers) : BitVec 8 := a.bits &&& 0xE0

/-- The named flags in order, then the remaining bits as one hexadecimal number. -/
def pieces (a : Modifiers) : List String :=
  (Modifier.all.filter a.has).map Modifier.name ++
    if a.unnamed = 0 then [] else ["0x" ++ String.ofList (Nat.toDigits 16 a.unnamed.toNat)]

def text (a : Modifiers) : String := " | ".intercalate a.pieces

/-- One or more hexadecimal digits of either case, a plus sign in front or not. -/
def hexNumber? (s : List Char) : Option Nat :=
  let digits := if s.head? = some '+' then s.tail else s
  if digits = [] then none else Text.ofHex? digits

/-- One piece between bars, already trimmed: a name, or `0x` and a number of at most eight bits. -/
def ofPiece (s : List Char) : Except FlagError Modifiers :=
  if s = [] then .error .empty
  else match s with
    | '0' :: 'x' :: digits => match hexNumber? digits with
      | some n => if n < 256 then .ok ⟨BitVec.ofNat 8 n⟩ else .error .badHex
      | none => .error .badHex
    | _ => match Modifier.all.find? fun m => m.name.toList == s with
      | some m => .ok ⟨m.mask⟩
      | none => .error .unnamed

/-- The union of the pieces between bars; a blank text is the empty set. -/
def ofChars (s : List Char) : Except FlagError Modifiers :=
  if Text.trim s = [] then .ok empty
  else return ((← (s.splitOn '|').mapM fun p => ofPiece (Text.trim p))).foldl union empty

def ofText (s : String) : Except FlagError Modifiers := ofChars s.toList

end Modifiers
end PureEnum
