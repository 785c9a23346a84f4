import PureEnum.Number.Double

/-! The shortest decimal of a floating-point number: of the decimals that lie nearer to it than to
any other number of the format, those of the fewest digits, and of these the nearest. -/
namespace PureEnum

/-- The number `digits * 10 ^ exponent`. -/
structure Decimal where
  digits : Nat
  exponent : Int
  deriving DecidableEq, Repr

namespace Double

/-- Whether the number below is nearer than the one above: at a power of two, unless the exponent
is the least. -/
def narrowBelow (x : Double) : Bool := x.mantissa == 1 <<< 52 && leastExponent < x.exponent

/-- A quarter of the last binary place, as a fraction of ten to the power of `exponent`. -/
def quarter (x : Double) (exponent : Int) : Nat × Nat :=
  let scale := x.exponent - 2
  (Nat.pow 10 (-exponent).toNat <<< scale.toNat, Nat.pow 10 exponent.toNat <<< (-scale).toNat)

/-- Whether a decimal lies in the interval of what rounds to `x`: from halfway to the number below
to halfway to the number above, with both ends for an even mantissa only. -/
def covers (x : Double) (a : Decimal) : Bool :=
  let (n, d) := x.quarter a.exponent
  let low := (4 * x.mantissa - if x.narrowBelow then 1 else 2) * n
  let high := (4 * x.mantissa + 2) * n
  let value := a.digits * d
  if x.mantissa % 2 = 0 then low ≤ value && value ≤ high else low < value && value < high

/-- Of the two multiples of ten to the power of `exponent` around `x`, the nearer one that rounds
to `x`; the even one, if they are equally near. -/
def onGrid? (x : Double) (exponent : Int) : Option Decimal :=
  let (n, d) := x.quarter exponent
  let value := 4 * x.mantissa * n
  let below : Decimal := ⟨value / d, exponent⟩
  let above : Decimal := ⟨value / d + 1, exponent⟩
  let first := 2 * value < (below.digits + above.digits) * d ||
    (2 * value == (below.digits + above.digits) * d && below.digits % 2 == 0)
  (if first then [below, above] else [above, below]).find? x.covers

/-- The powers of ten from the greatest number's down to the least's. -/
def grids : List Int := (List.range 633).map fun (i : Nat) => 308 - i

def exact (x : Double) : Decimal :=
  if 0 ≤ x.exponent then ⟨x.mantissa <<< x.exponent.toNat, 0⟩
  else ⟨x.mantissa * Nat.pow 5 (-x.exponent).toNat, x.exponent⟩

/-- The coarsest grid with a multiple that rounds to `x` gives the fewest digits. -/
def shortest (x : Double) : Decimal :=
  if x.isZero then ⟨0, 0⟩ else (grids.findSome? x.onGrid?).getD x.exact

theorem covers_of_onGrid? {x : Double} {exponent : Int} {a : Decimal}
    (h : x.onGrid? exponent = some a) : x.covers a := List.find?_some h

end Double
end PureEnum
