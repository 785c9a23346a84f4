import PureEnum.Json.Basic
import PureEnum.Number.Layout
import PureEnum.Text.Visible

/-! How a value of the wrong type is described: by its type, and with its content where that is
one word. In a quoted text every character that is not visible is written by its code. -/
namespace PureEnum.Json

def shown (c : Char) : List Char :=
  if c = '\x22' then ['\x5c', '\x22']
  else if c = '\x5c' then ['\x5c', '\x5c']
  else if c = '\n' then ['\x5c', 'n']
  else if c = '\r' then ['\x5c', 'r']
  else if c = '\t' then ['\x5c', 't']
  else if c = '\x00' then ['\x5c', '0']
  else if Text.isVisible c then [c]
  else Text.codeEscape c

def found : Json → String
  | null => "null"
  | bool value => "boolean `" ++ (if value then "true" else "false") ++ "`"
  | integer value => "integer `" ++ toString value ++ "`"
  | float value => "floating point `" ++ value.text ++ "`"
  | str value => "string \"" ++ String.ofList (value.toList.flatMap shown) ++ "\""
  | arr _ => "sequence"
  | obj _ => "map"

end PureEnum.Json
