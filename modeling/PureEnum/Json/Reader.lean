import PureEnum.Json.Numeral
import PureEnum.Text.Hex

/-! Reading the text of a data value. Blanks may stand between any two marks, and nothing may follow
the value. Of several fields of one name an object keeps the first place and the last value. -/
namespace PureEnum.Json

def isSpace (c : Char) : Bool := c == ' ' || c == '\t' || c == '\n' || c == '\r'

def skipSpace (s : List Char) : List Char := s.dropWhile isSpace

/-- Reads what a text starts with and gives the text behind it. -/
abbrev Reader (α : Type) := List Char → Option (α × List Char)

namespace Reader

/-! Numbers -/

def digits (s : List Char) : List Nat × List Char :=
  ((s.takeWhile Char.isDigit).map fun c => c.toNat - 0x30, s.dropWhile Char.isDigit)

def someDigits? : Reader (List Nat) := fun s =>
  match digits s with
  | ([], _) => none
  | found => some found

/-- A zero in front is the only digit before the point. -/
def whole? : Reader (List Nat) := fun s => do
  let (found, s) ← someDigits? s
  if found.head? = some 0 ∧ found ≠ [0] then none else some (found, s)

def fraction? : Reader (List Nat)
  | '.' :: s => someDigits? s
  | s => some ([], s)

def decimalValue (ds : List Nat) : Nat := ds.foldl (fun n d => 10 * n + d) 0

def exponentValue? : Reader Int
  | '+' :: s => (someDigits? s).map fun (ds, s) => (decimalValue ds, s)
  | '-' :: s => (someDigits? s).map fun (ds, s) => (-decimalValue ds, s)
  | s => (someDigits? s).map fun (ds, s) => (decimalValue ds, s)

def exponent? : Reader (Option Int)
  | 'e' :: s | 'E' :: s => (exponentValue? s).map fun (n, s) => (some n, s)
  | s => some (none, s)

def number? (negative : Bool) : Reader Json := fun s => do
  let (whole, s) ← whole? s
  let (fraction, s) ← fraction? s
  let (exponent, s) ← exponent? s
  return (← Numeral.value? ⟨negative, whole, fraction, exponent⟩, s)

/-! Texts -/

def code? : Reader Nat
  | a :: b :: c :: d :: s => (Text.ofHex? [a, b, c, d]).map (·, s)
  | _ => none

/-- A character by its code. A code of the upper half of a pair needs the lower half behind it;
other codes that are no character are refused. -/
def escaped? : Reader Char := fun s => do
  let (high, s) ← code? s
  if 0xD800 ≤ high ∧ high < 0xDC00 then
    let '\x5c' :: 'u' :: s := s | none
    let (low, s) ← code? s
    if 0xDC00 ≤ low ∧ low < 0xE000 then
      some (Char.ofNat (0x10000 + (high - 0xD800) * 0x400 + (low - 0xDC00)), s)
    else none
  else if 0xDC00 ≤ high ∧ high < 0xE000 then none
  else some (Char.ofNat high, s)

def shortEscape? : Char → Option Char
  | '\x22' => some '\x22'
  | '\x5c' => some '\x5c'
  | '/' => some '/'
  | 'b' => some '\x08'
  | 'f' => some '\x0c'
  | 'n' => some '\n'
  | 'r' => some '\r'
  | 't' => some '\t'
  | _ => none

/-- The next character of a text; none is its closing quote. -/
def textChar? : Reader (Option Char)
  | '\x22' :: s => some (none, s)
  | '\x5c' :: 'u' :: s => (escaped? s).map fun (c, s) => (some c, s)
  | '\x5c' :: c :: s => (shortEscape? c).map fun c => (some c, s)
  | c :: s => if c.toNat < 0x20 then none else some (some c, s)
  | [] => none

/-- The characters up to the closing quote; each counts down once. -/
def textChars? : (fuel : Nat) → Reader (List Char)
  | 0, _ => none
  | fuel + 1, s => do
    match ← textChar? s with
    | (none, s) => some ([], s)
    | (some c, s) =>
      let (rest, s) ← textChars? fuel s
      some (c :: rest, s)

def text? (fuel : Nat) : Reader String := fun s =>
  (textChars? fuel s).map fun (chars, s) => (String.ofList chars, s)

/-! Values -/

def addField (name : String) (value : Json) (fields : List (String × Json)) :
    List (String × Json) :=
  (name, (fields.lookup name).getD value) :: fields.filter (·.1 != name)

mutual
/-- Each opening mark and each comma counts down once, and so does each value. -/
def valueWithin? : (fuel : Nat) → Reader Json
  | 0, _ => none
  | fuel + 1, s => match skipSpace s with
    | 'n' :: 'u' :: 'l' :: 'l' :: s => some (.null, s)
    | 't' :: 'r' :: 'u' :: 'e' :: s => some (.bool true, s)
    | 'f' :: 'a' :: 'l' :: 's' :: 'e' :: s => some (.bool false, s)
    | '\x22' :: s => (text? fuel s).map fun (value, s) => (.str value, s)
    | '[' :: s => match skipSpace s with
      | ']' :: s => some (.arr [], s)
      | s => (itemsWithin? fuel s).map fun (items, s) => (.arr items, s)
    | '\x7b' :: s => match skipSpace s with
      | '\x7d' :: s => some (.obj [], s)
      | s => (fieldsWithin? fuel s).map fun (fields, s) => (.obj fields, s)
    | '-' :: s => number? true s
    | s => number? false s

def itemsWithin? : (fuel : Nat) → Reader (List Json)
  | 0, _ => none
  | fuel + 1, s => do
    let (item, s) ← valueWithin? fuel s
    match skipSpace s with
    | ']' :: s => some ([item], s)
    | ',' :: s =>
      let (items, s) ← itemsWithin? fuel s
      some (item :: items, s)
    | _ => none

def fieldsWithin? : (fuel : Nat) → Reader (List (String × Json))
  | 0, _ => none
  | fuel + 1, s => do
    let '\x22' :: s := skipSpace s | none
    let (name, s) ← text? fuel s
    let ':' :: s := skipSpace s | none
    let (value, s) ← valueWithin? fuel s
    match skipSpace s with
    | '\x7d' :: s => some ([(name, value)], s)
    | ',' :: s =>
      let (fields, s) ← fieldsWithin? fuel s
      some (addField name value fields, s)
    | _ => none
end

end Reader

/-- The value of a text. A mark takes a character and a value takes one, so twice their number is
enough. -/
def ofChars? (s : List Char) : Option Json :=
  match Reader.valueWithin? (2 * s.length + 1) s with
  | some (value, rest) => if skipSpace rest = [] then some value else none
  | none => none

def ofText? (s : String) : Option Json := ofChars? s.toList

end PureEnum.Json
