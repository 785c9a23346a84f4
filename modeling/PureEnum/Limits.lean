/-! The bounds that recursion over a tree keeps, and the size a member run is expected to have. -/
namespace PureEnum

/-- How many visits may be open while enums are gathered. A node below is left as it is. -/
def maxTreeDepth : Nat := 500

/-- How many nodes may be open while a tree is printed. A placeholder stands for a node below. -/
def maxPrintDepth : Nat := 1000

/-- Most enums have at most this many members, and room is made for as many at once. -/
def usualMemberCount : Nat := 8

end PureEnum
