import PureEnum.Text.Hex

/-! Double-quoted text. A quote, a backslash and the characters with a short escape of their
own are written with a backslash; any other control character of ASCII as four hexadecimal
digits; everything else as it stands. No character looks at its neighbours. -/
namespace PureEnum.Text

def escape (c : Char) : List Char :=
  if c = '\x22' then ['\x5c', '\x22']
  else if c = '\x5c' then ['\x5c', '\x5c']
  else if c = '\n' then ['\x5c', 'n']
  else if c = '\r' then ['\x5c', 'r']
  else if c = '\t' then ['\x5c', 't']
  else if c = '\x00' then ['\x5c', '0']
  else if c.toNat < 0x20 || c.toNat == 0x7F then '\x5c' :: 'u' :: hexFour c.toNat
  else [c]

def quoteChars (s : List Char) : List Char := '\x22' :: s.flatMap escape ++ ['\x22']

def quote (s : String) : String := String.ofList (quoteChars s.toList)

end PureEnum.Text
