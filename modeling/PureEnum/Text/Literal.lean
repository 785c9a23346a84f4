import PureEnum.Text.Hex

/-! Double-quoted literals as a program states them, read from the opening quote to the closing
one. The value of a literal is a list of 16-bit units; a character above U+FFFF makes two of them.
An escape may need the character behind it: a backslash and a zero are the null unit only where no
decimal digit follows, and a backslash before any other digit is refused. -/
namespace PureEnum.Text

def units (n : Nat) : List Nat :=
  if n < 0x10000 then [n] else [0xD800 + (n - 0x10000) / 0x400, 0xDC00 + (n - 0x10000) % 0x400]

def unitsOf (s : List Char) : List Nat := s.flatMap fun c => units c.toNat

namespace Literal

def isLineEnd (c : Char) : Bool := c == '\n' || c == '\r' || c == '\u2028' || c == '\u2029'

/-- The unit of a backslash and a letter. Any other character but a digit stands for itself. -/
def letter? : Char → Option Nat
  | 'b' => some 0x08
  | 't' => some 0x09
  | 'n' => some 0x0A
  | 'v' => some 0x0B
  | 'f' => some 0x0C
  | 'r' => some 0x0D
  | _ => none

/-- A code point of one digit or more, up to the closing brace. -/
def braced? (s : List Char) : Option (List Nat × List Char) := do
  let digits := s.takeWhile (· != '\x7d')
  let '\x7d' :: s := s.dropWhile (· != '\x7d') | none
  let n ← ofHex? digits
  if digits ≠ [] ∧ n ≤ 0x10FFFF then some (units n, s) else none

/-- What is behind a backslash: its units, which are none where it only joins two lines. -/
def escaped? : List Char → Option (List Nat × List Char)
  | 'u' :: '\x7b' :: s => braced? s
  | 'u' :: a :: b :: c :: d :: s => (ofHex? [a, b, c, d]).map fun n => ([n], s)
  | 'x' :: a :: b :: s => (ofHex? [a, b]).map fun n => ([n], s)
  | '0' :: s => if s.head?.any Char.isDigit then none else some ([0], s)
  | '\r' :: '\n' :: s => some ([], s)
  | c :: s =>
    if isLineEnd c then some ([], s)
    else if c.isDigit || c == 'u' || c == 'x' then none
    else some (((letter? c).map fun n => [n]).getD (units c.toNat), s)
  | [] => none

/-- What a literal has before its closing quote, one character or one escape of it. A line may not
end there, except at the two separators. -/
def next? : List Char → Option (List Nat × List Char)
  | '\x5c' :: s => escaped? s
  | c :: s => if c == '\n' || c == '\r' then none else some (units c.toNat, s)
  | [] => none

/-- The units up to the closing quote, and the text behind it; each character and each escape
counts down once. -/
def body? : (fuel : Nat) → List Char → Option (List Nat × List Char)
  | _, '\x22' :: s => some ([], s)
  | 0, _ => none
  | fuel + 1, s => do
    let (first, s) ← next? s
    let (others, s) ← body? fuel s
    return (first ++ others, s)

/-- The value of the literal that a text starts with, and the text behind it. -/
def read? : List Char → Option (List Nat × List Char)
  | '\x22' :: s => body? s.length s
  | _ => none

end Literal
end PureEnum.Text
