/-! Hexadecimal digits. They are read in either case. -/
namespace PureEnum.Text

/-- A digit below sixteen, in upper case. -/
def hexDigit (n : Nat) : Char := (Nat.digitChar n).toUpper

/-- The code of a character below U+10000 as exactly four digits. -/
def hexFour (n : Nat) : List Char :=
  [hexDigit (n / 4096 % 16), hexDigit (n / 256 % 16), hexDigit (n / 16 % 16), hexDigit (n % 16)]

def hexValue? (c : Char) : Option Nat :=
  if c.isDigit then some (c.toNat - 0x30)
  else if 'a' ≤ c ∧ c ≤ 'f' then some (c.toNat - 0x57)
  else if 'A' ≤ c ∧ c ≤ 'F' then some (c.toNat - 0x37)
  else none

/-- The number that digits make; nothing where one of the characters is no digit. -/
def ofHex? (s : List Char) : Option Nat :=
  (s.mapM hexValue?).map fun ds => ds.foldl (fun n d => 16 * n + d) 0

end PureEnum.Text
