/-! Binary floating-point numbers of 64 bits, without infinities. What no such number equals is
rounded to the nearest one, and from halfway between two of them to the one of even mantissa;
what lies beyond the greatest has no answer. -/
namespace PureEnum

/-- The nearest natural number to `n / d`; of two equally near ones, the even one. -/
def roundDiv (n d : Nat) : Nat :=
  let q := n / d
  let r := n % d
  if 2 * r < d then q else if d < 2 * r then q + 1 else q + q % 2

/-- A rounded quotient is at most half a unit off. -/
theorem roundDiv_near (n : Nat) {d : Nat} (pos : 0 < d) :
    2 * n ≤ 2 * (d * roundDiv n d) + d ∧ 2 * (d * roundDiv n d) ≤ 2 * n + d := by
  have whole := Nat.div_add_mod n d
  have below := Nat.mod_lt n pos
  have next : d * (n / d + 1) = d * (n / d) + d := Nat.mul_succ ..
  simp only [roundDiv]
  split
  · omega
  split
  · rw [next]
    omega
  · rcases Nat.mod_two_eq_zero_or_one (n / d) with h | h <;> rw [h]
    · rw [Nat.add_zero]
      omega
    · rw [next]
      omega

/-- The number `mantissa * 2 ^ exponent` with a sign, which zero has as well. The mantissa has at
most 53 bits, and fewer only with the least exponent. -/
structure Double where
  negative : Bool
  mantissa : Nat
  exponent : Int
  deriving DecidableEq, Repr

namespace Double

def leastExponent : Int := -1074

def greatestExponent : Int := 971

/-- The exponent of the greatest power of two that is at most `n / d`. -/
def binaryOrder (n d : Nat) : Int :=
  let order := (n.log2 : Int) - d.log2
  if n <<< (-order).toNat < d <<< order.toNat then order - 1 else order

/-- The number nearest to `n / d`. -/
def ofRatio? (negative : Bool) (n d : Nat) : Option Double :=
  if n = 0 then some ⟨negative, 0, leastExponent⟩
  else
    let exponent : Int := max (binaryOrder n d - 52) leastExponent
    let mantissa : Nat := roundDiv (n <<< (-exponent).toNat) (d <<< exponent.toNat)
    let x : Double := if mantissa == 1 <<< 53 then ⟨negative, 1 <<< 52, exponent + 1⟩
      else ⟨negative, mantissa, exponent⟩
    if x.exponent ≤ greatestExponent then some x else none

/-- The number nearest to `n / d * 2 ^ scale`. -/
def ofScaled? (negative : Bool) (n d : Nat) (scale : Int) : Option Double :=
  ofRatio? negative (n <<< scale.toNat) (d <<< (-scale).toNat)

def ofNat? (negative : Bool) (n : Nat) : Option Double := ofRatio? negative n 1

def isZero (x : Double) : Bool := x.mantissa == 0

def multiply? (x y : Double) : Option Double :=
  ofScaled? (x.negative != y.negative) (x.mantissa * y.mantissa) 1 (x.exponent + y.exponent)

def divide? (x y : Double) : Option Double :=
  ofScaled? (x.negative != y.negative) x.mantissa y.mantissa (x.exponent - y.exponent)

/-- The exponent of the greatest power of ten within the format. -/
def maxPower : Nat := 308

def powerOfTen? (n : Nat) : Option Double := ofNat? false (Nat.pow 10 n)

/-- The product of `x` and ten to the power of `places`, by one multiplication. -/
def raise? (x : Double) (places : Nat) : Option Double :=
  if x.isZero then some x
  else if places ≤ maxPower then do x.multiply? (← powerOfTen? places)
  else none

/-- The quotient of `x` by ten to the power of `places`: one division, after others by the greatest
power of ten while `places` is beyond it. -/
def lower? (x : Double) (places : Nat) : Option Double :=
  if x.isZero then some x
  else if places ≤ maxPower then do x.divide? (← powerOfTen? places)
  else do (← x.divide? (← powerOfTen? maxPower)).lower? (places - maxPower)
termination_by places
decreasing_by simp only [maxPower] at *; omega

/-- The number of a decimal. The digits are rounded before they are scaled, and scaling rounds
again, so the result is not always the nearest number to the decimal. -/
def ofDecimal? (negative : Bool) (digits : Nat) (exponent : Int) : Option Double := do
  let x ← ofNat? negative digits
  if 0 ≤ exponent then x.raise? exponent.toNat else x.lower? (-exponent).toNat

end Double
end PureEnum
