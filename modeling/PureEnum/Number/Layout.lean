import PureEnum.Number.Shortest

/-! How a floating-point number is laid out in its shortest decimal: positionally where the point
stands at most fifteen places behind the first digit or five before it, and else with one digit
before the point and the exponent behind. A positional number shows a digit on both sides of the
point. -/
namespace PureEnum

def zeros (n : Nat) : List Char := List.replicate n '0'

namespace Decimal

def digitChars (a : Decimal) : List Char := Nat.toDigits 10 a.digits

/-- The exponent of the first digit. -/
def order (a : Decimal) : Int := a.exponent + a.digitChars.length - 1

/-- The digits about the point, with the zeros it takes to reach it. -/
def positional (a : Decimal) : List Char :=
  if 0 ≤ a.exponent then a.digitChars ++ zeros a.exponent.toNat ++ ['.', '0']
  else if 0 ≤ a.order then
    let whole := a.order.toNat + 1
    a.digitChars.take whole ++ '.' :: a.digitChars.drop whole
  else '0' :: '.' :: zeros (-a.order - 1).toNat ++ a.digitChars

/-- The exponent has a sign always, and a point stands only between digits. -/
def scientific (a : Decimal) : List Char :=
  let fraction := a.digitChars.drop 1
  let sign := if 0 ≤ a.order then '+' else '-'
  a.digitChars.take 1 ++ (if fraction = [] then [] else '.' :: fraction) ++
    'e' :: sign :: Nat.toDigits 10 a.order.natAbs

def layout (a : Decimal) : List Char :=
  if -5 ≤ a.order ∧ a.order ≤ 15 then a.positional else a.scientific

end Decimal

/-- A zero keeps its sign. -/
def Double.text (x : Double) : String :=
  String.ofList ((if x.negative then ['-'] else []) ++ x.shortest.layout)

end PureEnum
