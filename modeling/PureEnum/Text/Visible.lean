import PureEnum.Text.Blank
import PureEnum.Text.HiddenTable
import PureEnum.Text.Ranges

/-! Visible characters: those that show where they stand, without a character before them to join.
The space is the only blank among them. -/
namespace PureEnum.Text

/-- ASCII is settled without the tables. -/
def isVisible (c : Char) : Bool :=
  let n := c.toNat
  if n < 0x80 then 0x20 ≤ n && n < 0x7F
  else if n < 0x1000 then !inRanges n hiddenRangesLow
  else if n < 0x10000 then !inRanges n hiddenRangesBasic
  else !inRanges n hiddenRangesHigh

theorem isVisible_ascii {c : Char} (h : c.toNat < 0x80) :
    isVisible c = (0x20 ≤ c.toNat && c.toNat < 0x7F : Bool) := by
  simp [isVisible, h]

/-- The space is the only blank that is visible. -/
theorem isVisible_of_isBlank {c : Char} (h : isBlank c) : isVisible c = (c == ' ') := by
  have small : ∀ n ∈ [9, 10, 11, 12, 13, 0x20, 0x85, 0xA0, 0x1680, 0x2000, 0x2001, 0x2002, 0x2003,
      0x2004, 0x2005, 0x2006, 0x2007, 0x2008, 0x2009, 0x200A, 0x2028, 0x2029, 0x202F, 0x205F,
      0x3000], isVisible (Char.ofNat n) = (Char.ofNat n == ' ') := by decide
  have listed := small c.toNat (by
    simp only [isBlank, Bool.or_eq_true, Bool.and_eq_true, decide_eq_true_eq, beq_iff_eq] at h
    simp only [List.mem_cons, List.not_mem_nil, or_false]
    omega)
  rwa [Char.ofNat_toNat] at listed

/-- A backslash, a small `u` and the code in braces, in lower-case hexadecimal digits. -/
def codeEscape (c : Char) : List Char :=
  '\x5c' :: 'u' :: '\x7b' :: Nat.toDigits 16 c.toNat ++ ['\x7d']

end PureEnum.Text
