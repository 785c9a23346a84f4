/-! Comments that are attached to an expression. The pure mark tells a minifier that a call may
be dropped when its result is unused. -/
namespace PureEnum

/-- The text stands between the delimiters. -/
structure Comment where
  text : String
  multiLine : Bool
  deriving DecidableEq, Repr

def pureText : String := "@__PURE__"

def Comment.pureMark : Comment := ⟨pureText, true⟩

def Comment.render (c : Comment) : String :=
  if c.multiLine then "/*" ++ c.text ++ "*/" else "//" ++ c.text

end PureEnum
