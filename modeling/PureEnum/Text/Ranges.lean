/-! Sets of code points as lists of inclusive ranges. -/
namespace PureEnum.Text

def inRanges (n : Nat) (ranges : List (Nat × Nat)) : Bool :=
  ranges.any fun (first, last) => first ≤ n && n ≤ last

end PureEnum.Text
