import PureEnum.Json.Basic

/-! The value of a written number. A numeral without a point and an exponent is a whole number as
long as it fits 64 bits, negative numbers with their sign; any other is a floating-point number, and
so is a zero with a minus sign. Digits that would take the number made of all digits beyond 64 bits
are not taken in; only the places of those before the point count. -/
namespace PureEnum.Json

structure Numeral where
  negative : Bool
  whole : List Nat
  /-- The digits behind the point; none where there is no point. -/
  fraction : List Nat
  exponent? : Option Int

/-- Takes in digits as long as they fit 64 bits; the digits left begin with one that does not. -/
def absorb (n : Nat) : List Nat → Nat × List Nat
  | [] => (n, [])
  | d :: ds => if 10 * n + d < 1 <<< 64 then absorb (10 * n + d) ds else (n, d :: ds)

theorem absorb_lt {n : Nat} (h : n < 1 <<< 64) : (ds : List Nat) → (absorb n ds).1 < 1 <<< 64
  | [] => h
  | d :: ds => by
    rw [absorb]
    split
    · exact absorb_lt ‹_› ds
    · exact h

namespace Numeral

/-- A whole number, if there is one of 64 bits. -/
def integer? (n : Numeral) : Option Int :=
  if n.fraction ≠ [] ∨ n.exponent? ≠ none then none
  else match n.negative, absorb 0 n.whole with
    | false, (value, []) => some value
    | true, (value, []) => if 0 < value ∧ value ≤ 1 <<< 63 then some (-value) else none
    | _, _ => none

/-- Nothing where the number is too great. -/
def float? (n : Numeral) : Option Double :=
  let (head, dropped) := absorb 0 n.whole
  let (digits, ignored) := absorb head n.fraction
  let taken := n.fraction.length - ignored.length
  Double.ofDecimal? n.negative digits (n.exponent?.getD 0 + dropped.length - taken)

def value? (n : Numeral) : Option Json :=
  match n.integer? with
  | some value => some (.integer value)
  | none => n.float?.map .float

end Numeral
end PureEnum.Json
