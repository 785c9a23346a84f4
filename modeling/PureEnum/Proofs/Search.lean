import PureEnum.Proofs.Grammar

/-! The search of the screen. What stands at a find of a pattern is a declaration, and no find in
front reaches into it; so the search meets every place where a pattern matches with equal names,
and the screen accepts exactly the texts in which a form of its grammar stands somewhere. -/
namespace PureEnum.Screen

open Text Form

theorem anywhere_iff {p : List Char → Bool} {s : List Char} :
    anywhere p s ↔ ∃ before x, s = before ++ x ∧ p x := by
  constructor
  · intro holds
    induction s with
    | nil => exact ⟨[], [], rfl, holds⟩
    | cons c s ih =>
      rcases Bool.or_eq_true_iff.mp holds with here | there
      · exact ⟨[], c :: s, rfl, here⟩
      · obtain ⟨before, x, rfl, found⟩ := ih there
        exact ⟨c :: before, x, rfl, found⟩
  · rintro ⟨before, x, rfl, holds⟩
    exact anywhere_append holds

theorem mentions_append (literal before behind : List Char) :
    mentions literal (before ++ (literal ++ behind)) :=
  anywhere_append (List.isPrefixOf_iff_prefix.mpr (List.prefix_append ..))

/-- Whatever is skipped, a find is one of the pattern, where a word may start. -/
theorem exists_of_findsEqual {pattern : List Char → Option Find} {s : List Char} :
    ∀ {skip : Nat} {last : Option Char}, findsEqual pattern skip last s →
      ∃ before x f, s = before ++ x ∧ atBoundary (before.getLast?.or last) ∧
        pattern x = some f ∧ f.declared = f.used := by
  induction s with
  | nil =>
    intro skip last found
    simp [findsEqual] at found
  | cons c s ih =>
    intro skip last found
    have later : ∀ {skip}, findsEqual pattern skip (some c) s →
        ∃ before x f, c :: s = before ++ x ∧ atBoundary (before.getLast?.or last) ∧
          pattern x = some f ∧ f.declared = f.used := by
      intro skip found
      obtain ⟨before, x, f, rfl, boundary, matched, same⟩ := ih found
      rw [← getLast?_cons_or c before last] at boundary
      exact ⟨c :: before, x, f, rfl, boundary, matched, same⟩
    cases skip with
    | succ skip => exact later found
    | zero =>
      rw [findsEqual] at found
      split at found
      case h_1 f here =>
        obtain ⟨matched, boundary⟩ := Option.filter_eq_some_iff.mp here
        rcases Bool.or_eq_true_iff.mp found with equal | found
        · exact ⟨[], c :: s, f, rfl, boundary, matched, eq_of_beq equal⟩
        · exact later found
      case h_2 => exact later found

/-- What starts as the grammar has it is a declaration. -/
theorem Reads.declares {name s rest : List Char} {forms : List Form}
    (reads : Reads (keyword :: nonempty gap :: Form.name name :: forms) s rest) : Declares s := by
  obtain ⟨_, t, rfl, ⟨keyword, rfl⟩, spaced⟩ := Reads.cons_iff.mp reads
  obtain ⟨blanks, u, rfl, ⟨some, blank⟩, named⟩ := Reads.cons_iff.mp spaced
  obtain ⟨⟨nonempty, chars⟩, named⟩ := Reads.name_iff.mp named
  obtain ⟨v, rfl, -⟩ := Reads.text_iff.mp named
  obtain ⟨c, name, rfl⟩ := List.exists_cons_of_ne_nil nonempty
  exact ⟨keyword, blanks, c, name ++ v, some, blank, chars c List.mem_cons_self, rfl⟩

theorem isPlain_of_isBlank {c : Char} (blank : isBlank c) : isPlain c := by
  simp only [isPlain, Bool.and_eq_true, bne_iff_ne, ne_eq]
  refine ⟨⟨?_, ?_⟩, ?_⟩ <;> rintro rfl <;> contradiction

/-- A brace is opened before any is closed. -/
theorem Reads.head?_dropWhile_isPlain {declared used s rest : List Char}
    (reads : Reads (fills declared used) s rest) : (s.dropWhile isPlain).head? ≠ some '\x7d' := by
  have blank : ∀ a, gap a → run isPlain a := fun a inside c member =>
    isPlain_of_isBlank (inside c member)
  have front : ∀ form ∈ [keyword, nonempty gap, Form.name declared, gap, text ['='], gap],
      ∀ a, form a → run isPlain a := by
    simp only [List.forall_mem_cons]
    refine ⟨?_, fun a form => blank a form.2, ?_, blank, ?_, blank, List.forall_mem_nil _⟩
    · rintro _ ⟨keyword, rfl⟩
      cases keyword <;> decide
    · rintro _ ⟨rfl, -, chars⟩ c member
      exact isPlain_of_isNameChar (chars c member)
    · rintro _ rfl
      decide
  obtain ⟨t, ⟨a, rfl, first⟩, behind⟩ := Reads.append_iff.mp
    (show Reads ([keyword, nonempty gap, Form.name declared, gap, text ['='], gap] ++
      text ['\x7b'] :: _) s rest from reads)
  obtain ⟨u, rfl, -⟩ := Reads.text_iff.mp behind
  rw [List.dropWhile_append_of_pos (Form.run_of_row front first)]
  exact by simp [isPlain]

/-- A find is seen exactly where the forms of its pattern stand with one name for both. -/
theorem findsEqual_iff {pattern : List Char → Option Find}
    {forms : List Char → List Char → List Form}
    (exact : ∀ {s declared used rest}, pattern s = some ⟨declared, used, rest⟩ ↔
      Reads (forms declared used) s rest)
    (apart : ∀ {x declared used rest}, Reads (forms declared used) x rest → x ≠ [] ∧
      ∀ {d t g}, x <:+ t → pattern (d :: t) = some g → x <:+ g.rest) {s : List Char} :
    findsEqual pattern 0 none s ↔ ∃ before factor behind, s = before ++ (factor ++ behind) ∧
      atBoundary before.getLast? ∧ ∃ name, row (forms name name) factor := by
  constructor
  · intro found
    obtain ⟨before, x, ⟨name, used, rest⟩, rfl, boundary, matched, same⟩ :=
      exists_of_findsEqual found
    obtain rfl : name = used := same
    obtain ⟨factor, rfl, inside⟩ := exact.mp matched
    exact ⟨before, factor, rest, rfl, by simpa using boundary, name, inside⟩
  · rintro ⟨before, factor, behind, rfl, boundary, name, inside⟩
    have reads : Reads (forms name name) (factor ++ behind) behind := ⟨factor, rfl, inside⟩
    obtain ⟨nonempty, keeps⟩ := apart reads
    exact findsEqual_append keeps nonempty (exact.mpr reads) rfl (Nat.zero_le _)
      (by simpa using boundary)

theorem calls_apart {declared used x rest : List Char}
    (reads : Reads (calls declared used) x rest) :
    x ≠ [] ∧ ∀ {d t g}, x <:+ t → wrapper? (d :: t) = some g → x <:+ g.rest :=
  ⟨reads.declares.ne_nil, reads.declares.keeps_wrapper⟩

theorem fills_apart {declared used x rest : List Char}
    (reads : Reads (fills declared used) x rest) :
    x ≠ [] ∧ ∀ {d t g}, x <:+ t → flat? (d :: t) = some g → x <:+ g.rest :=
  ⟨reads.declares.ne_nil, reads.declares.keeps_flat reads.head?_dropWhile_isPlain⟩

/-- An annotation is found wherever its forms stand, and its tag is mentioned there. -/
theorem annotated_iff {s : List Char} :
    (mentions "@enum".toList s && anywhere (fun s => (annotation? s).isSome) s) ↔
      ∃ before factor behind, s = before ++ (factor ++ behind) ∧ row annotates factor := by
  rw [Bool.and_eq_true, anywhere_iff]
  constructor
  · rintro ⟨-, before, x, rfl, found⟩
    obtain ⟨rest, found⟩ := Option.isSome_iff_exists.mp found
    obtain ⟨factor, rfl, inside⟩ := annotation?_eq_some_iff.mp found
    exact ⟨before, factor, rest, rfl, inside⟩
  · rintro ⟨before, factor, behind, rfl, inside⟩
    have reads : Reads annotates (factor ++ behind) behind := ⟨factor, rfl, inside⟩
    refine ⟨?_, before, _, rfl, ?_⟩
    · obtain ⟨t, split, spaced⟩ := Reads.text_iff.mp reads
      obtain ⟨blanks, u, rfl, -, tagged⟩ := Reads.cons_iff.mp spaced
      obtain ⟨v, rfl, -⟩ := Reads.text_iff.mp tagged
      have mentioned := mentions_append "@enum".toList (before ++ ("/**".toList ++ blanks)) v
      rw [split]
      simpa only [List.append_assoc] using mentioned
    · rw [annotation?_eq_some_iff.mpr reads]
      rfl

/-- A declaration is found wherever the forms of either pattern stand with one name for both, and
its keyword is mentioned there. -/
theorem declared_found_iff {s : List Char} :
    (mentionsKeyword s && (findsEqual wrapper? 0 none s || findsEqual flat? 0 none s)) ↔
      ∃ before factor behind, s = before ++ (factor ++ behind) ∧ atBoundary before.getLast? ∧
        ∃ name, row (calls name name) factor ∨ row (fills name name) factor := by
  rw [Bool.and_eq_true, Bool.or_eq_true, findsEqual_iff wrapper?_eq_some_iff calls_apart,
    findsEqual_iff flat?_eq_some_iff fills_apart]
  constructor
  · rintro ⟨-, ⟨before, factor, behind, split, boundary, name, inside⟩ |
      ⟨before, factor, behind, split, boundary, name, inside⟩⟩
    · exact ⟨before, factor, behind, split, boundary, name, .inl inside⟩
    · exact ⟨before, factor, behind, split, boundary, name, .inr inside⟩
  · rintro ⟨before, factor, behind, rfl, boundary, name, inside | inside⟩
    · have reads : Reads (calls name name) (factor ++ behind) behind := ⟨factor, rfl, inside⟩
      exact ⟨mentionsKeyword_append reads.declares,
        .inl ⟨before, factor, behind, rfl, boundary, name, inside⟩⟩
    · have reads : Reads (fills name name) (factor ++ behind) behind := ⟨factor, rfl, inside⟩
      exact ⟨mentionsKeyword_append reads.declares,
        .inr ⟨before, factor, behind, rfl, boundary, name, inside⟩⟩

theorem mayHoldEnum_iff {s : List Char} : mayHoldEnum s ↔
    ∃ before factor behind, s = before ++ (factor ++ behind) ∧
      (atBoundary before.getLast? ∧
        (∃ name, row (calls name name) factor ∨ row (fills name name) factor) ∨
          row annotates factor) := by
  rw [mayHoldEnum, Bool.or_eq_true, declared_found_iff, annotated_iff]
  constructor
  · rintro (⟨before, factor, behind, split, boundary, inside⟩ |
      ⟨before, factor, behind, split, inside⟩)
    · exact ⟨before, factor, behind, split, .inl ⟨boundary, inside⟩⟩
    · exact ⟨before, factor, behind, split, .inr inside⟩
  · rintro ⟨before, factor, behind, split, ⟨boundary, inside⟩ | inside⟩
    · exact .inl ⟨before, factor, behind, split, boundary, inside⟩
    · exact .inr ⟨before, factor, behind, split, inside⟩

/-- The screen accepts exactly its grammar: somewhere in the text, behind no word character, a
declaration and a wrapper call or a first member of the same name, or anywhere an annotation. What
stands in front and behind does not matter, nor do finds with two different names. -/
theorem accepts_iff (program : String) : accepts program ↔
    ∃ before factor behind, program.toList = before ++ (factor ++ behind) ∧
      ((∀ c ∈ before.getLast?, isWord c = false) ∧
        (∃ name, row (calls name name) factor ∨ row (fills name name) factor) ∨
          row annotates factor) := by
  have boundary : ∀ before : Option Char, atBoundary before ↔ ∀ c ∈ before, isWord c = false := by
    intro before
    cases before <;> simp [atBoundary]
  simp only [← boundary]
  exact mayHoldEnum_iff

/-! ### Emitted enums -/

def declaring (keyword : Keyword) (name behind : List Char) : List Char :=
  keyword.text.toList ++ ' ' :: (name ++ behind)

/-- The end of a declaration and the start of a wrapper call, in so many more parentheses. -/
def thenCalling (gap : List Char) (parens : Nat) (name behind : List Char) : List Char :=
  ';' :: (gap ++ (List.replicate (parens + 1) '(' ++
    ("function (".toList ++ (name ++ (") \x7b".toList ++ behind)))))

def thenFilling (inner gap name : List Char) (sign : Char) (behind : List Char) : List Char :=
  " = \x7b".toList ++ (inner ++ ("\x7d;".toList ++ (gap ++ (name ++ sign :: behind))))

structure Named (name : List Char) : Prop where
  nonempty : name ≠ []
  chars : ∀ c ∈ name, isNameChar c

namespace Named

variable {keyword : Keyword} {name gap behind : List Char} (named : Named name)
include named

theorem form : Form.name name name := ⟨rfl, named.nonempty, named.chars⟩

theorem reads_calling {parens : Nat} (blank : Form.gap gap) : Reads (calls name name)
    (declaring keyword name (thenCalling gap parens name behind)) behind := by
  have none : Form.gap [] := List.forall_mem_nil _
  have one : Form.gap [' '] := by decide
  have opened : Form.nonempty (many (row [text ['('], Form.gap]))
      (List.replicate (parens + 1) '(') :=
    parens_iff.mpr ⟨List.replicate parens '(', rfl, by simp +contextual [run]⟩
  change Reads (calls name name) (keyword.text.toList ++ ([' '] ++ (name ++ ([] ++
      ([';'] ++ ([] ++ (gap ++ (List.replicate (parens + 1) '(' ++ ("function".toList ++
      ([' '] ++ (['('] ++ ([] ++ (name ++ ([] ++ ([')'] ++ ([' '] ++ (['\x7b'] ++
        behind))))))))))))))))) behind
  exact .cons ⟨keyword, rfl⟩ <| .cons ⟨List.cons_ne_nil _ _, one⟩ <| .cons named.form <|
    .cons none <| .cons rfl <| .cons ⟨[], rfl, List.forall_mem_nil _⟩ <| .cons blank <|
    .cons opened <| .cons rfl <| .cons one <| .cons rfl <| .cons none <| .cons named.form <|
    .cons none <| .cons rfl <| .cons one <| .cons rfl <| Reads.nil_iff.mpr rfl

theorem reads_filling {inner : List Char} {sign : Char} (plain : run isPlain inner)
    (blank : Form.gap gap) (access : sign = '.' ∨ sign = '[') : Reads (fills name name)
      (declaring keyword name (thenFilling inner gap name sign behind)) behind := by
  have none : Form.gap [] := List.forall_mem_nil _
  have one : Form.gap [' '] := by decide
  have accessed : either (text ['.']) (text ['[']) [sign] := by
    rcases access with rfl | rfl
    · exact .inl rfl
    · exact .inr rfl
  change Reads (fills name name) (keyword.text.toList ++ ([' '] ++ (name ++ ([' '] ++
      (['='] ++ ([' '] ++ (['\x7b'] ++ (inner ++ (['\x7d'] ++ ([] ++ ([';'] ++ (gap ++ (name ++
        ([] ++ ([sign] ++ behind))))))))))))))) behind
  exact .cons ⟨keyword, rfl⟩ <| .cons ⟨List.cons_ne_nil _ _, one⟩ <| .cons named.form <|
    .cons one <| .cons rfl <| .cons one <| .cons rfl <| .cons plain <| .cons rfl <| .cons none <|
    .cons rfl <| .cons blank <| .cons named.form <| .cons none <| .cons accessed <|
    Reads.nil_iff.mpr rfl

section Seen

variable {before : List Char} (boundary : atBoundary before.getLast?)
include boundary

/-- An emitted wrapper is seen, whatever stands in front and behind. -/
theorem mayHoldEnum_calling {parens : Nat} (blank : ∀ c ∈ gap, isBlank c) :
    mayHoldEnum (before ++ declaring keyword name (thenCalling gap parens name behind)) := by
  obtain ⟨factor, split, inside⟩ := named.reads_calling blank
  rw [split]
  exact mayHoldEnum_iff.mpr
    ⟨before, factor, behind, rfl, .inl ⟨boundary, name, .inl inside⟩⟩

/-- A declared literal with a member behind it is seen, whatever stands in front and behind. -/
theorem mayHoldEnum_filling {inner : List Char} {sign : Char} (plain : ∀ c ∈ inner, isPlain c)
    (blank : ∀ c ∈ gap, isBlank c) (access : sign = '.' ∨ sign = '[') :
    mayHoldEnum (before ++ declaring keyword name (thenFilling inner gap name sign behind)) := by
  obtain ⟨factor, split, inside⟩ := named.reads_filling plain blank access
  rw [split]
  exact mayHoldEnum_iff.mpr
    ⟨before, factor, behind, rfl, .inl ⟨boundary, name, .inr inside⟩⟩

end Seen

end Named

end PureEnum.Screen
