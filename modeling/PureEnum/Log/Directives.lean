import PureEnum.Text.Blank

/-! Filter directives for a log, separated by commas. The name of a pass stands for the module it
logs from, and for level debug where no level is given. Any other directive is passed on. -/
namespace PureEnum.Log

/-- The passes that have a name, and where they log from. -/
def passes : List (List Char × List Char) :=
  [("wrap_enums".toList, "tsz_optimizer::wrap_enums".toList)]

def defaultLevel : List Char := "debug".toList

def module? (target : List Char) : Option (List Char) := passes.lookup target

/-- A directive is cut at its first equals sign; what follows is the level, kept as it is. -/
def expandDirective (directive : List Char) : List Char :=
  let target := directive.takeWhile (· != '=')
  match module? target with
  | none => directive
  | some path => path ++ '=' :: match directive.dropWhile (· != '=') with
    | _ :: level => level
    | [] => defaultLevel

/-- The directives of a text, trimmed; blank ones do not count. -/
def directives (s : List Char) : List (List Char) :=
  ((s.splitOn ',').map Text.trim).filter (· != [])

def expandChars (s : List Char) : List Char :=
  [','].intercalate ((directives s).map expandDirective)

def expand (s : String) : String := String.ofList (expandChars s.toList)

end PureEnum.Log
