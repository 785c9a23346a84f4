import PureEnum.Text.Blank

/-! The formats in which a log can be written. -/
namespace PureEnum.Log

inductive Format where
  | text | tree | json
  deriving DecidableEq, Repr

/-- Blanks around a name and the case of its letters do not matter; no letter outside ASCII has
one of these names' letters as its lower case. An unknown name means text. -/
def Format.ofText (s : String) : Format :=
  let name := (Text.trim s.toList).map Char.toLower
  if name = "tree".toList then tree else if name = "json".toList then json else text

def Format.name : Format → String
  | text => "Text"
  | tree => "Tree"
  | json => "Json"

end PureEnum.Log
