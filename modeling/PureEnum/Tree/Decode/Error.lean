import PureEnum.Json.Found
import PureEnum.Tree.Modifiers

/-! Why a tree cannot be read. What was expected instead is not part of a message, so a message
ends where such a remark would begin, also if it is part of what was found. -/
namespace PureEnum

inductive ReadError where
  | missingField (name : String)
  | unknownVariant (name : String)
  | wrongType (found : Json)
  | wrongValue (found : Json)
  | wrongLength (count : Nat)
  | badFlags (error : FlagError)

namespace ReadError

def fullText : ReadError → String
  | missingField name => "missing field `" ++ name ++ "`"
  | unknownVariant name => "unknown variant `" ++ name ++ "`"
  | wrongType found => "invalid type: " ++ found.found
  | wrongValue found => "invalid value: " ++ found.found
  | wrongLength count => "invalid length " ++ toString count
  | badFlags error => error.message

/-- What is in front of the first occurrence of a mark. -/
def cutAt (mark : List Char) : List Char → List Char
  | [] => []
  | c :: s => if mark.isPrefixOf (c :: s) then [] else c :: cutAt mark s

def message (e : ReadError) : String :=
  String.ofList (cutAt ", expected".toList e.fullText.toList)

end ReadError

abbrev Read (α : Type) := Except ReadError α

end PureEnum
