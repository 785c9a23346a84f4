/-! White space as the Unicode property White_Space has it: twenty-five characters, the
zero-width ones not among them. Trimming takes them off both ends of a text. -/
namespace PureEnum.Text

def isBlank (c : Char) : Bool :=
  let n := c.toNat
  (9 ≤ n && n ≤ 13) || n == 0x20 || n == 0x85 || n == 0xA0 || n == 0x1680 ||
    (0x2000 ≤ n && n ≤ 0x200A) || n == 0x2028 || n == 0x2029 || n == 0x202F ||
    n == 0x205F || n == 0x3000

/-- Every character that core counts as white space is blank. -/
theorem isBlank_of_isWhitespace {c : Char} (h : c.isWhitespace) : isBlank c := by
  simp only [Char.isWhitespace, Bool.or_eq_true, decide_eq_true_eq] at h
  rcases h with ((rfl | rfl) | rfl) | rfl <;> rfl

def trimStart (s : List Char) : List Char := s.dropWhile isBlank

def trim (s : List Char) : List Char := (trimStart (trimStart s).reverse).reverse

/-- Only blanks are trimmed. -/
theorem mem_trim {c : Char} {s : List Char} (member : c ∈ s) (other : isBlank c = false) :
    c ∈ trim s := by
  have inside : ∀ t : List Char, c ∈ t → c ∈ trimStart t := by
    intro t member
    rw [← List.takeWhile_append_dropWhile (p := isBlank) (l := t)] at member
    rcases List.mem_append.mp member with taken | left
    · have blank := List.all_eq_true.mp List.all_takeWhile c taken
      rw [other] at blank
      contradiction
    · exact left
  apply List.mem_reverse.mpr
  apply inside
  exact List.mem_reverse.mpr (inside s member)

/-- Blanks around a text are trimmed together with its own. -/
theorem trim_pad {front back : List Char} (before : ∀ c ∈ front, isBlank c)
    (behind : ∀ c ∈ back, isBlank c) (s : List Char) : trim (front ++ s ++ back) = trim s := by
  have start : trimStart (front ++ s ++ back) = trimStart (s ++ back) := by
    rw [List.append_assoc]
    exact List.dropWhile_append_of_pos before
  have ending : ∀ t : List Char, trimStart (t ++ back).reverse = trimStart t.reverse := by
    intro t
    rw [List.reverse_append]
    exact List.dropWhile_append_of_pos fun c member => behind c (List.mem_reverse.mp member)
  have apart : trimStart (s ++ back) = trimStart s ++ back ∨
      trimStart (s ++ back) = [] ∧ trimStart s = [] := by
    have none : (back ++ []).dropWhile isBlank = [] := List.dropWhile_append_of_pos behind
    rw [List.append_nil] at none
    rw [trimStart, List.dropWhile_append]
    split
    case isTrue blank => exact .inr ⟨none, List.isEmpty_iff.mp blank⟩
    case isFalse => exact .inl rfl
  rcases apart with split | ⟨none, blank⟩
  · rw [trim, start, split, ending, trim]
  · rw [trim, start, none, trim, blank]

end PureEnum.Text
