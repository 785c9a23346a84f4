import Mathlib.Data.List.Infix
import PureEnum.Enum.Screen
import PureEnum.Tree.Node

/-! What the screen sees. A find in front of an emitted enum could take the start of the enum away
with it, since the search goes on behind each find. None does: nothing that a pattern expects ends
as a declaration starts, and what it reads to an end stops in front of the declaration or fails in
it. So the enum is found, whatever stands around it. -/
namespace PureEnum.Screen

open Text

section Characters

variable {c : Char}

/-- No blank is a name character. -/
theorem isNameChar_of_isBlank (blank : isBlank c) : isNameChar c = false := by
  have points : ∀ n ∈ List.range' 9 5 ++ List.range' 0x2000 11 ++
      [0x20, 0x85, 0xA0, 0x1680, 0x2028, 0x2029, 0x202F, 0x205F, 0x3000],
      isNameChar (Char.ofNat n) = false := by decide +kernel
  rw [← Char.ofNat_toNat c]
  apply points
  simp only [isBlank, Bool.or_eq_true, Bool.and_eq_true, decide_eq_true_eq, beq_iff_eq] at blank
  simp only [List.mem_append, List.mem_range'_1, List.mem_cons, List.not_mem_nil]
  omega

theorem isBlank_of_isNameChar (name : isNameChar c) : isBlank c = false := by
  cases blank : isBlank c with
  | false => rfl
  | true => rw [isNameChar_of_isBlank blank] at name; contradiction

theorem isPlain_of_isNameChar (name : isNameChar c) : isPlain c := by
  have signs : isNameChar '\x7b' = false ∧ isNameChar '\x7d' = false ∧ isNameChar ';' = false := by
    decide
  simp only [isPlain, Bool.and_eq_true, bne_iff_ne, ne_eq]
  refine ⟨⟨?_, ?_⟩, ?_⟩ <;> rintro rfl <;> simp [signs] at name

end Characters

section Suffixes

variable {x s : List Char}

theorem suffix_dropWhile (p : Char → Bool) (within : x <:+ s) :
    x <:+ s.dropWhile p ∨ s.dropWhile p = x.dropWhile p := by
  obtain ⟨before, rfl⟩ := within
  rw [List.dropWhile_append]
  split
  · exact .inr rfl
  · exact .inl (List.suffix_append ..)

theorem suffix_or_of_append {literal r : List Char} (within : x <:+ literal ++ r) :
    x <:+ r ∨ ∃ l, l <:+ literal ∧ l ≠ [] ∧ l <+: x := by
  obtain ⟨before, same⟩ := within
  rcases List.append_eq_append_iff.mp same with ⟨l, rfl, rfl⟩ | ⟨l, rfl, rfl⟩
  · by_cases empty : l = []
    · subst empty
      exact .inl (List.suffix_refl r)
    · exact .inr ⟨l, List.suffix_append .., empty, List.prefix_append ..⟩
  · exact .inl (List.suffix_append ..)

end Suffixes

def Declares (x : List Char) : Prop :=
  ∃ (keyword : Keyword) (gap : List Char) (c : Char) (rest : List Char), gap ≠ [] ∧
    (∀ b ∈ gap, isBlank b) ∧ isNameChar c ∧ x = keyword.text.toList ++ (gap ++ c :: rest)

theorem keyword_cases (keyword : Keyword) : keyword.text.toList = ['v', 'a', 'r'] ∨
    keyword.text.toList = ['l', 'e', 't'] ∨ keyword.text.toList = ['c', 'o', 'n', 's', 't'] := by
  cases keyword <;> simp [Keyword.text]

/-- Reads no text away that starts with a declaration. -/
def Keeps (x : List Char) (read : List Char → Option (List Char)) : Prop :=
  ∀ {s r}, x <:+ s → read s = some r → x <:+ r

/-- What the patterns expect, a keyword without its first letter. -/
def literals : List (List Char) :=
  ["ar".toList, "et".toList, "onst".toList, "/*".toList, "@__PURE__".toList, "#__PURE__".toList,
    "*/".toList, "function".toList, ['('], [')'], ['\x7b'], ['\x7d'], ['='], [';'], ['.'], ['[']]

namespace Declares

variable {x : List Char} (declares : Declares x)
include declares

theorem ne_nil : x ≠ [] := by
  obtain ⟨keyword, gap, c, rest, nonempty, -, -, rfl⟩ := declares
  simp [nonempty]

/-- Nothing that is expected ends as a declaration starts. -/
theorem keeps_expect {literal : List Char} (known : literal ∈ literals) :
    Keeps x (expect literal) := by
  intro s r within read
  have whole : literal ++ r = s := List.isPrefixOf?_eq_some_iff_append_eq.mp read
  rcases suffix_or_of_append (whole ▸ within) with inside | ⟨l, ending, nonempty, start⟩
  · exact inside
  have clash : ∀ literal ∈ literals, ∀ l ∈ literal.tails, l ≠ [] → ∀ keyword ∈ Keyword.all,
      ¬ l <+: keyword.text.toList ∧ ¬ keyword.text.toList <+: l := by decide
  obtain ⟨keyword, gap, c, rest, -, -, -, rfl⟩ := declares
  have apart := clash literal known l ((List.mem_tails ..).mpr ending) nonempty keyword
    (by cases keyword <;> decide)
  exact absurd (List.prefix_or_prefix_of_prefix start (List.prefix_append ..)) (by tauto)

theorem keeps_dropWhile {p : Char → Bool}
    (stop : p 'v' = false ∧ p 'l' = false ∧ p 'c' = false) :
    Keeps x fun s => some (s.dropWhile p) := by
  rintro s r within ⟨⟩
  have same : x.dropWhile p = x := by
    obtain ⟨keyword, gap, c, rest, -, -, -, rfl⟩ := declares
    rcases keyword_cases keyword with chars | chars | chars <;> simp [chars, stop]
  rcases suffix_dropWhile p within with inside | last
  · exact inside
  · rw [last, same]

theorem keeps_trimStart : Keeps x fun s => some (trimStart s) :=
  declares.keeps_dropWhile (by decide)

theorem keeps_blanks : Keeps x blanks? := by
  intro s r within read
  cases s with
  | nil => contradiction
  | cons c s =>
    rw [blanks?] at read
    split at read
    case isTrue blank =>
      exact declares.keeps_trimStart within (by simpa [trimStart, blank] using read)
    case isFalse => contradiction

theorem keeps_token {literal : List Char} (known : literal ∈ literals) :
    Keeps x fun s => expect literal (trimStart s) := fun within read =>
  declares.keeps_expect known (declares.keeps_trimStart within rfl) read

/-- A name that is read to its end may take the keyword, but then no sign follows. -/
theorem keeps_name {s : List Char} {found : List Char × List Char} {sign : Char}
    (within : x <:+ s) (name : run? isNameChar s = some found) (known : [sign] ∈ literals)
    (other : isNameChar sign = false) {r : List Char}
    (read : expect [sign] (trimStart found.2) = some r) : x <:+ r := by
  obtain rfl : found = (s.takeWhile isNameChar, s.dropWhile isNameChar) := by
    simp only [run?, Option.ite_none_left_eq_some, Option.some.injEq] at name
    exact name.2.symm
  rcases suffix_dropWhile isNameChar within with inside | last
  · exact declares.keeps_token known inside read
  · obtain ⟨keyword, gap, c, behind, nonempty, blank, name, rfl⟩ := declares
    obtain ⟨b, gap, rfl⟩ := List.exists_cons_of_ne_nil nonempty
    have stop : isNameChar b = false := isNameChar_of_isBlank (blank b List.mem_cons_self)
    have letters : keyword.text.toList.all isNameChar := by cases keyword <;> decide
    have left : (keyword.text.toList ++ (b :: gap ++ c :: behind)).dropWhile isNameChar =
        b :: gap ++ c :: behind := by
      rw [List.dropWhile_append_of_pos (List.all_eq_true.mp letters), List.cons_append,
        List.dropWhile_cons_of_neg (by simp [stop])]
    rw [last, left, trimStart, List.dropWhile_append_of_pos blank,
      List.dropWhile_cons_of_neg (by simp [isBlank_of_isNameChar name])] at read
    obtain ⟨rfl, -⟩ := List.cons.inj (List.isPrefixOf?_eq_some_iff_append_eq.mp read)
    rw [other] at name
    contradiction

/-- The first letter of a keyword stands in front of the declaration. -/
theorem keeps_keyword {c : Char} : Keeps x fun s => keyword? (c :: s) := by
  intro s r within read
  simp only [keyword?, Option.bind_eq_bind, Option.bind_eq_some_iff, Option.orElse_eq_orElse,
    Option.orElse_eq_or, Option.or_eq_some_iff] at read
  obtain ⟨t, start, gap⟩ := read
  have letter : ∀ {literal others : List Char} {first : Char}, literal = first :: others →
      others ∈ literals → expect literal (c :: s) = some t → x <:+ t := by
    rintro _ others first rfl known read
    have whole := List.isPrefixOf?_eq_some_iff_append_eq.mp read
    exact declares.keeps_expect known within
      (List.isPrefixOf?_eq_some_iff_append_eq.mpr (List.cons.inj whole).2)
  refine declares.keeps_blanks ?_ gap
  rcases start with start | ⟨-, start | ⟨-, start⟩⟩
  · exact letter (by decide : "var".toList = 'v' :: "ar".toList) (by decide) start
  · exact letter (by decide : "let".toList = 'l' :: "et".toList) (by decide) start
  · exact letter (by decide : "const".toList = 'c' :: "onst".toList) (by decide) start

theorem keeps_pureMark : Keeps x pureMark? := by
  intro s r within read
  simp only [pureMark?, Option.bind_eq_bind, Option.bind_eq_some_iff, Option.orElse_eq_orElse,
    Option.orElse_eq_or, Option.or_eq_some_iff] at read
  obtain ⟨t, opening, u, mark, closing⟩ := read
  have inside := declares.keeps_token (by decide) within opening
  have marked : x <:+ u := by
    rcases mark with mark | ⟨-, mark⟩
    · exact declares.keeps_token (by decide) inside mark
    · exact declares.keeps_token (by decide) inside mark
  exact declares.keeps_token (by decide) marked closing

theorem keeps_skipMarks : Keeps x fun s => some (skipMarks s) := by
  rintro s r within ⟨⟩
  induction s using skipMarks.induct with
  | case1 s rest mark shorter ih =>
    rw [skipMarks, mark]
    simp only [shorter, if_true]
    exact ih (declares.keeps_pureMark within mark)
  | case2 s rest mark longer =>
    rw [skipMarks, mark]
    simpa only [longer, if_false] using within
  | case3 s none =>
    rwa [skipMarks, none]

theorem keeps_opened : Keeps x opened? := by
  intro s r within read
  simp only [opened?, Option.bind_eq_bind, Option.bind_eq_some_iff] at read
  obtain ⟨t, opening, rest⟩ := read
  exact declares.keeps_dropWhile (by decide)
    (declares.keeps_expect (by decide) within opening) rest

/-- What a wrapper is found in ends where no declaration has started. -/
theorem keeps_wrapper {c : Char} {s : List Char} {f : Find} (within : x <:+ s)
    (found : wrapper? (c :: s) = some f) : x <:+ f.rest := by
  simp only [wrapper?, Option.bind_eq_bind, Option.bind_eq_some_iff] at found
  obtain ⟨a, keyword, declared, name, b, ending, d, opening, e, function, g, parameters, used,
    parameter, h, closing, r, body, result⟩ := found
  obtain rfl := Option.some.inj result
  have behind := declares.keeps_name (declares.keeps_keyword within keyword) name (by decide)
    (by decide) ending
  have inside := declares.keeps_opened
    (declares.keeps_trimStart (declares.keeps_skipMarks behind rfl) rfl) opening
  have call := declares.keeps_token (by decide) (declares.keeps_expect (by decide) inside function)
    parameters
  exact declares.keeps_token (by decide)
    (declares.keeps_name (declares.keeps_trimStart call rfl) parameter (by decide)
      (by decide) closing) body

/-- What a literal may hold ends at the declaration's own brace or at its end, unless a brace is
closed there. -/
theorem keeps_flat {c : Char} {s : List Char} {f : Find}
    (closed : (x.dropWhile isPlain).head? ≠ some '\x7d') (within : x <:+ s)
    (found : flat? (c :: s) = some f) : x <:+ f.rest := by
  simp only [flat?, Option.bind_eq_bind, Option.bind_eq_some_iff, Option.orElse_eq_orElse,
    Option.orElse_eq_or, Option.or_eq_some_iff] at found
  obtain ⟨a, keyword, declared, name, b, sign, d, opening, e, closing, g, ending, used, owner,
    r, access, result⟩ := found
  obtain rfl := Option.some.inj result
  have behind := declares.keeps_token (by decide) (declares.keeps_name
    (declares.keeps_keyword within keyword) name (by decide) (by decide) sign) opening
  have literal : x <:+ e := by
    rcases suffix_dropWhile isPlain behind with inside | last
    · exact declares.keeps_expect (by decide) inside closing
    · rw [last] at closing
      rw [← List.isPrefixOf?_eq_some_iff_append_eq.mp closing] at closed
      exact absurd rfl closed
  have member := declares.keeps_trimStart (declares.keeps_token (by decide) literal ending) rfl
  rcases access with access | ⟨-, access⟩
  · exact declares.keeps_name member owner (by decide) (by decide) access
  · exact declares.keeps_name member owner (by decide) (by decide) access

end Declares

theorem getLast?_cons_or (c : Char) (s : List Char) (last : Option Char) :
    (c :: s).getLast?.or last = s.getLast?.or (some c) := by
  rw [List.getLast?_cons]
  cases s.getLast? <;> rfl

/-- A find is seen if no find in front reaches into it. The induction is on what stands in front
of it, and of that no more is skipped than there is. -/
theorem findsEqual_append {pattern : List Char → Option Find} {x : List Char} {f : Find}
    (keeps : ∀ {d t g}, x <:+ t → pattern (d :: t) = some g → x <:+ g.rest) (nonempty : x ≠ [])
    (found : pattern x = some f) (same : f.declared = f.used) {before : List Char} :
    ∀ {skip : Nat} {last : Option Char}, skip ≤ before.length →
      atBoundary (before.getLast?.or last) → findsEqual pattern skip last (before ++ x) := by
  induction before with
  | nil =>
    intro skip last none boundary
    obtain rfl := Nat.le_zero.mp none
    obtain ⟨c, s, rfl⟩ := List.exists_cons_of_ne_nil nonempty
    rw [List.nil_append, findsEqual, found]
    simp [Option.filter, show atBoundary last by simpa using boundary, same]
  | cons d before ih =>
    intro skip last skipped boundary
    rw [getLast?_cons_or] at boundary
    rw [List.cons_append]
    cases skip with
    | succ skip => exact ih (Nat.le_of_succ_le_succ skipped) boundary
    | zero =>
      rw [findsEqual]
      split
      case h_1 g earlier =>
        have inside := keeps (List.suffix_append before x) (Option.filter_eq_some_iff.mp earlier).1
        have shorter := inside.length_le
        rw [ih (by simp at shorter ⊢; omega) boundary, Bool.or_true]
      case h_2 => exact ih (Nat.zero_le _) boundary

theorem anywhere_append {p : List Char → Bool} {before s : List Char} (holds : p s) :
    anywhere p (before ++ s) := by
  induction before with
  | nil => cases s <;> simp [anywhere, holds]
  | cons c before ih => simp [anywhere, ih]

theorem mentionsKeyword_append {before x : List Char} (declares : Declares x) :
    mentionsKeyword (before ++ x) := by
  obtain ⟨keyword, gap, c, rest, -, -, -, rfl⟩ := declares
  have mentioned : mentions keyword.text.toList
      (before ++ (keyword.text.toList ++ (gap ++ c :: rest))) :=
    anywhere_append (List.isPrefixOf_iff_prefix.mpr (List.prefix_append ..))
  cases keyword <;> simp [mentionsKeyword, Keyword.text] at mentioned ⊢ <;> simp [mentioned]

end PureEnum.Screen
