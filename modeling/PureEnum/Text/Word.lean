import PureEnum.Text.Ranges
import PureEnum.Text.WordTable

/-! Word characters: letters, marks, decimal digits, connectors and joiners, the class that
bounds a word in a textual search. Identifiers add the dollar sign. -/
namespace PureEnum.Text

def isAsciiWord (c : Char) : Bool := c.isAlphanum || c == '_'

/-- ASCII is settled without the tables. -/
def isWord (c : Char) : Bool :=
  let n := c.toNat
  if n < 0x80 then isAsciiWord c
  else if n < 0x1000 then inRanges n wordRangesLow
  else if n < 0x10000 then inRanges n wordRangesBasic
  else inRanges n wordRangesHigh

def isNameChar (c : Char) : Bool := isWord c || c == '$'

theorem isWord_ascii {c : Char} (h : c.toNat < 0x80) : isWord c = isAsciiWord c := by
  simp [isWord, h]

end PureEnum.Text
