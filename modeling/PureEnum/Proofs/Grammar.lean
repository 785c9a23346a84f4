import PureEnum.Proofs.Form
import PureEnum.Proofs.Screening

/-! The grammar of the screen. What each pattern finds is said by a row of forms that speaks of
characters and texts alone. A pattern reads a text exactly if such a row stands at its start, with
the names in it and the text behind it that the pattern gives. -/
namespace PureEnum.Screen

open Text

namespace Form

abbrev gap : Form := run isBlank

def keyword : Form := fun s => ∃ keyword : Keyword, s = keyword.text.toList

def name (x : List Char) : Form := fun s => s = x ∧ nonempty (run isNameChar) s

/-- `/* @__PURE__ */` or `/* #__PURE__ */`, with the blanks in front. -/
def pureMark : List Form := [gap, text "/*".toList, gap,
  either (text "@__PURE__".toList) (text "#__PURE__".toList), gap, text "*/".toList]

/-- `var X; (function (Y) {`, with any number of pure marks and any further parentheses. -/
def calls (declared used : List Char) : List Form := [
  keyword, nonempty gap, name declared, gap, text [';'],
  many (row pureMark), gap, nonempty (many (row [text ['('], gap])), text "function".toList,
  gap, text ['('], gap, name used, gap, text [')'], gap, text ['\x7b']]

/-- `var X = { … }; Y.` or `var X = { … }; Y[`. -/
def fills (declared used : List Char) : List Form := [
  keyword, nonempty gap, name declared, gap, text ['='],
  gap, text ['\x7b'], run isPlain, text ['\x7d'], gap, text [';'],
  gap, name used, gap, either (text ['.']) (text ['['])]

/-- `/** @enum {T} */` -/
def annotates : List Form := [text "/**".toList, gap, text "@enum".toList, gap, text ['\x7b'],
  nonempty (run isWord), text ['\x7d'], gap, text "*/".toList]

end Form

open Form

theorem Form.Apart.name {x : List Char} : (Form.name x).Apart isBlank := by
  rintro _ ⟨rfl, nonempty, chars⟩
  obtain ⟨c, s, rfl⟩ := List.exists_cons_of_ne_nil nonempty
  exact congrArg some (isBlank_of_isNameChar (chars c List.mem_cons_self))

theorem Reads.name_iff {x s rest : List Char} {forms : List Form} :
    Reads (name x :: forms) s rest ↔
      nonempty (run isNameChar) x ∧ Reads (text x :: forms) s rest := by
  rw [← exists_text_iff]
  constructor
  · rintro ⟨_, ⟨rfl, chars⟩, behind⟩
    exact ⟨chars, behind⟩
  · rintro ⟨chars, behind⟩
    exact ⟨x, ⟨rfl, chars⟩, behind⟩

/-! ### What the parts of a pattern read -/

section Parts

variable {s t rest n : List Char}

theorem expect_eq_some_iff {literal : List Char} :
    expect literal s = some rest ↔ Reads [text literal] s rest := by
  rw [expect, List.isPrefixOf?_eq_some_iff_append_eq, eq_comm]
  simp [Reads.cons_iff, text]

/-- A literal and the blanks in front of it, or whatever other class it is outside of. -/
theorem token_iff {p : Char → Bool} {literal : List Char}
    (stop : literal.head?.map p = some false) :
    expect literal (s.dropWhile p) = some rest ↔ Reads [run p, text literal] s rest :=
  expect_eq_some_iff.trans (Apart.text stop).row.dropWhile_iff

theorem either_iff {one other : List Char} (apart : ∀ t, expect one (other ++ t) = none) :
    (expect one s <|> expect other s) = some rest ↔
      Reads [either (text one) (text other)] s rest := by
  simp only [Option.orElse_eq_orElse, Option.orElse_eq_or, Option.or_eq_some_iff,
    expect_eq_some_iff, Reads.cons_iff, Reads.nil_iff, either]
  constructor
  · rintro (⟨a, t, split, first, rfl⟩ | ⟨-, a, t, split, second, rfl⟩)
    · exact ⟨a, t, split, .inl first, rfl⟩
    · exact ⟨a, t, split, .inr second, rfl⟩
  · rintro ⟨a, t, rfl, rfl | rfl, rfl⟩
    · exact .inl ⟨_, _, rfl, rfl, rfl⟩
    · exact .inr ⟨apart t, _, _, rfl, rfl, rfl⟩

theorem sign_iff {sign : Char} (stop : isBlank sign = false) :
    expect [sign] (trimStart s) = some rest ↔ Reads [gap, text [sign]] s rest :=
  token_iff (by simp [stop])

/-- A name is read to its end, which a sign behind it marks. -/
theorem name_iff {sign : Form} (other : sign.Apart isNameChar) :
    (∃ t, run? isNameChar s = some (n, t) ∧ Reads [gap, sign] t rest) ↔
      Reads [name n, gap, sign] s rest := by
  have apart : (row [gap, sign]).Apart isNameChar :=
    other.row.run fun c blank => isNameChar_of_isBlank blank
  exact apart.run?_iff.trans Reads.name_iff.symm

/-- The blanks in front of a name are read first. -/
theorem trimmed_name_iff {sign : Form} (other : sign.Apart isNameChar) :
    (∃ t, run? isNameChar (trimStart s) = some (n, t) ∧ Reads [gap, sign] t rest) ↔
      Reads [gap, name n, gap, sign] s rest :=
  (name_iff other).trans Apart.name.row.dropWhile_iff

theorem blanks?_eq_some_iff : blanks? s = some t ↔ ∃ gap, run? isBlank s = some (gap, t) := by
  cases s with
  | nil => simp [blanks?, run?]
  | cons c s => cases blank : isBlank c <;> simp [blanks?, run?, trimStart, blank]

theorem expect_keyword_iff : (expect "var".toList s <|> expect "let".toList s <|>
    expect "const".toList s) = some t ↔ Reads [keyword] s t := by
  have none : ∀ t, expect "var".toList ("let".toList ++ t) = none ∧
      expect "var".toList ("const".toList ++ t) = none ∧
      expect "let".toList ("const".toList ++ t) = none := fun _ => ⟨rfl, rfl, rfl⟩
  simp only [Option.orElse_eq_orElse, Option.orElse_eq_or, Option.or_eq_some_iff,
    expect_eq_some_iff, Reads.cons_iff, Reads.nil_iff, keyword, text]
  constructor
  · rintro (⟨_, _, rfl, rfl, rfl⟩ | ⟨-, ⟨_, _, rfl, rfl, rfl⟩ | ⟨-, ⟨_, _, rfl, rfl, rfl⟩⟩⟩)
    · exact ⟨_, _, rfl, ⟨.var, rfl⟩, rfl⟩
    · exact ⟨_, _, rfl, ⟨.let, rfl⟩, rfl⟩
    · exact ⟨_, _, rfl, ⟨.const, rfl⟩, rfl⟩
  · rintro ⟨_, t, rfl, ⟨_ | _ | _, rfl⟩, rfl⟩
    · exact .inl ⟨_, _, rfl, rfl, rfl⟩
    · exact .inr ⟨(none t).1, .inl ⟨_, _, rfl, rfl, rfl⟩⟩
    · exact .inr ⟨(none t).2.1, .inr ⟨(none t).2.2, _, _, rfl, rfl, rfl⟩⟩

/-- A keyword and a name are read up to a sign behind them. -/
theorem declared_iff {sign : Form} (other : sign.Apart isNameChar) :
    (∃ t, keyword? s = some t ∧ ∃ t', run? isNameChar t = some (n, t') ∧
      Reads [gap, sign] t' rest) ↔ Reads [keyword, nonempty gap, name n, gap, sign] s rest := by
  have read : ∀ t, keyword? s = some t ↔
      ∃ u, Reads [keyword] s u ∧ ∃ blanks, run? isBlank u = some (blanks, t) := by
    intro t
    simp only [← expect_keyword_iff, ← blanks?_eq_some_iff]
    exact Option.bind_eq_some_iff
  have behind : ∀ u, (∃ blanks t, run? isBlank u = some (blanks, t) ∧
      Reads [name n, gap, sign] t rest) ↔ Reads [nonempty gap, name n, gap, sign] u rest := by
    intro u
    simp only [Apart.name.row.run?_iff]
    exact Reads.exists_text_iff
  simp only [read, name_iff other]
  change _ ↔ Reads ([keyword] ++ [nonempty gap, name n, gap, sign]) s rest
  simp only [Reads.append_iff, ← behind]
  constructor
  · rintro ⟨t, ⟨u, word, blanks, split⟩, named⟩
    exact ⟨u, word, blanks, t, split, named⟩
  · rintro ⟨u, word, blanks, t, split, named⟩
    exact ⟨t, ⟨u, word, blanks, split⟩, named⟩

theorem pureMark?_eq_some_iff : pureMark? s = some rest ↔ Reads pureMark s rest := by
  have opening : ∀ t, expect "/*".toList (trimStart s) = some t ↔
      Reads [gap, text "/*".toList] s t := fun _ => token_iff (by decide)
  have mark : ∀ t u, (expect "@__PURE__".toList (trimStart t) <|>
      expect "#__PURE__".toList (trimStart t)) = some u ↔ Reads [gap,
        either (text "@__PURE__".toList) (text "#__PURE__".toList)] t u := fun t u =>
    (either_iff fun _ => rfl).trans
      (Apart.either (.text (by decide)) (.text (by decide))).row.dropWhile_iff
  have closing : ∀ t, expect "*/".toList (trimStart t) = some rest ↔
      Reads [gap, text "*/".toList] t rest := fun _ => token_iff (by decide)
  simp only [pureMark?, Option.bind_eq_bind, Option.bind_eq_some_iff, opening, mark, closing]
  simp only [← Reads.append_iff]
  rfl

theorem pureMark_shorter (mark : Reads pureMark s t) : t.length < s.length := by
  obtain ⟨blanks, u, rfl, -, mark⟩ := Reads.cons_iff.mp mark
  obtain ⟨v, rfl, front, rfl, -⟩ := Reads.text_iff.mp mark
  simp only [List.length_append, show "/*".toList.length = 2 from rfl]
  omega

/-- All pure marks are read, up to something that no further one starts with. -/
theorem skipMarks_iff {forms : List Form} (none : ∀ t, Reads forms t rest → pureMark? t = none) :
    Reads forms (skipMarks s) rest ↔ Reads (many (row pureMark) :: forms) s rest := by
  -- The first mark read is the first of the row, as a pure mark is read in one way only.
  induction s using skipMarks.induct with
  | case1 s t mark shorter ih =>
    rw [skipMarks, mark]
    simp only [shorter, if_true]
    rw [ih, @Reads.many_iff _ _ s]
    constructor
    · exact fun behind => .inr ⟨t, Reads.row_iff.mpr (pureMark?_eq_some_iff.mp mark), behind⟩
    · rintro (behind | ⟨u, first, behind⟩)
      · rw [none s behind] at mark
        contradiction
      · rw [pureMark?_eq_some_iff.mpr (Reads.row_iff.mp first)] at mark
        rwa [← Option.some.inj mark]
  | case2 s t mark longer => exact absurd (pureMark_shorter (pureMark?_eq_some_iff.mp mark)) longer
  | case3 s other =>
    rw [skipMarks, other, Reads.many_iff]
    constructor
    · exact .inl
    · rintro (behind | ⟨u, first, -⟩)
      · exact behind
      · rw [pureMark?_eq_some_iff.mpr (Reads.row_iff.mp first)] at other
        contradiction

theorem paren_iff : row [text ['('], gap] s ↔ ∃ blanks, s = '(' :: blanks ∧ gap blanks := by
  simp [row, text]

/-- Any more parentheses and blanks behind a parenthesis. -/
theorem many_parens {t : List Char} (inside : run (fun c => c == '(' || isBlank c) t) :
    many (row [text ['('], gap]) ('(' :: t) := by
  have one : row [text ['('], gap] ['('] := paren_iff.mpr ⟨[], rfl, List.forall_mem_nil _⟩
  induction t with
  | nil => exact ⟨[['(']], rfl, List.forall_mem_singleton.mpr one⟩
  | cons c t ih =>
    obtain ⟨first, inside⟩ := List.forall_mem_cons.mp inside
    obtain ⟨parts, whole, each⟩ := ih inside
    rcases (Bool.or_eq_true ..).mp first with again | blank
    · obtain rfl := eq_of_beq again
      exact ⟨['('] :: parts, congrArg _ whole, List.forall_mem_cons.mpr ⟨one, each⟩⟩
    · -- A blank belongs to the parenthesis in front of it.
      cases parts with
      | nil => contradiction
      | cons part parts =>
        obtain ⟨first, others⟩ := List.forall_mem_cons.mp each
        obtain ⟨blanks, rfl, gap⟩ := paren_iff.mp first
        obtain ⟨-, rfl⟩ := List.cons.inj whole
        have longer : row [text ['('], Form.gap] ('(' :: c :: blanks) :=
          paren_iff.mpr ⟨c :: blanks, rfl, List.forall_mem_cons.mpr ⟨blank, gap⟩⟩
        exact ⟨('(' :: c :: blanks) :: parts, rfl, List.forall_mem_cons.mpr ⟨longer, others⟩⟩

/-- Parentheses with blanks behind each are one parenthesis and any of both. -/
theorem parens_iff : nonempty (many (row [text ['('], gap])) s ↔
    ∃ t, s = '(' :: t ∧ run (fun c => c == '(' || isBlank c) t := by
  constructor
  · rintro ⟨nonempty, parts, rfl, each⟩
    have inside : ∀ part ∈ parts, ∀ c ∈ part, c == '(' || isBlank c := by
      intro part member c inside
      obtain ⟨blanks, rfl, blank⟩ := paren_iff.mp (each part member)
      rcases List.mem_cons.mp inside with rfl | inside
      · rfl
      · simp [blank c inside]
    cases parts with
    | nil => contradiction
    | cons part parts =>
      obtain ⟨blanks, rfl, -⟩ := paren_iff.mp (each part List.mem_cons_self)
      refine ⟨blanks ++ parts.flatten, rfl, ?_⟩
      intro c member
      have whole : c ∈ (('(' :: blanks) :: parts).flatten := List.mem_cons_of_mem _ member
      obtain ⟨part, member, within⟩ := List.mem_flatten.mp whole
      exact inside part member c within
  · rintro ⟨t, rfl, inside⟩
    exact ⟨List.cons_ne_nil _ _, many_parens inside⟩

/-- Parentheses are read up to the function in them. -/
theorem opened?_iff : (∃ t, opened? s = some t ∧ expect "function".toList t = some rest) ↔
    Reads [nonempty (many (row [text ['('], gap])), text "function".toList] s rest := by
  have behind : ∀ v, expect "function".toList (v.dropWhile fun c => c == '(' || isBlank c) =
      some rest ↔ Reads [run fun c => c == '(' || isBlank c, text "function".toList] v rest :=
    fun v => token_iff (by decide)
  simp only [opened?, Option.bind_eq_bind, Option.bind_eq_some_iff, Option.pure_def,
    Option.some.injEq, @expect_eq_some_iff _ _ ['('], Reads.text_iff, Reads.nil_iff]
  rw [Reads.cons_iff]
  constructor
  · rintro ⟨_, ⟨_, ⟨v, rfl, rfl⟩, rfl⟩, function⟩
    obtain ⟨b, w, rfl, inside, function⟩ := Reads.cons_iff.mp ((behind v).mp function)
    exact ⟨'(' :: b, w, rfl, parens_iff.mpr ⟨b, rfl, inside⟩, function⟩
  · rintro ⟨a, w, rfl, parens, function⟩
    obtain ⟨b, rfl, inside⟩ := parens_iff.mp parens
    exact ⟨_, ⟨b ++ w, ⟨_, rfl, rfl⟩, rfl⟩,
      (behind _).mpr (Reads.cons_iff.mpr ⟨b, w, rfl, inside, function⟩)⟩

/-- The pure marks and the parentheses in front of a function. -/
theorem opened_iff : (∃ t, opened? (trimStart (skipMarks s)) = some t ∧
    expect "function".toList t = some rest) ↔ Reads [many (row pureMark), gap,
      nonempty (many (row [text ['('], gap])), text "function".toList] s rest := by
  have apart : (nonempty (many (row [text ['('], gap]))).Apart isBlank := by
    intro a form
    obtain ⟨t, rfl, -⟩ := parens_iff.mp form
    rfl
  refine opened?_iff.trans (apart.row.dropWhile_iff.trans (skipMarks_iff ?_))
  intro t behind
  obtain ⟨a, u, start, parens, -⟩ := Reads.cons_iff.mp (apart.row.dropWhile_iff.mpr behind)
  obtain ⟨b, rfl, -⟩ := parens_iff.mp parens
  rw [pureMark?, trimStart, start]
  rfl

end Parts

/-! ### What the patterns read -/

section Patterns

variable {s rest declared used : List Char}

theorem wrapper?_eq_some_iff :
    wrapper? s = some ⟨declared, used, rest⟩ ↔ Reads (calls declared used) s rest := by
  have first : ∀ {n s t}, _ ↔ Reads [keyword, nonempty gap, name n, gap, text [';']] s t :=
    declared_iff (.text (by decide))
  have second : ∀ {n s t}, _ ↔ Reads [gap, name n, gap, text [')']] s t :=
    trimmed_name_iff (.text (by decide))
  simp (disch := decide) only [wrapper?, Option.bind_eq_bind, Option.bind_eq_some_iff,
    Option.pure_def, Option.some.injEq, Find.mk.injEq, sign_iff]
  constructor
  · rintro ⟨a, word, ⟨n, a'⟩, declares, b, ending, c, parens, d, function, e, opening, ⟨m, e'⟩,
      parameter, f, closing, t, body, rfl, rfl, rfl⟩
    exact (first.mp ⟨a, word, a', declares, ending⟩).append
      ((opened_iff.mp ⟨c, parens, function⟩).append (opening.append
        ((second.mp ⟨e', parameter, closing⟩).append body)))
  · intro reads
    -- Each part of the row is what one step of the pattern reads.
    change Reads ([keyword, nonempty gap, name declared, gap, text [';']] ++
      ([many (row pureMark), gap, nonempty (many (row [text ['('], gap])),
          text "function".toList] ++
        ([gap, text ['(']] ++ ([gap, name used, gap, text [')']] ++ [gap, text ['\x7b']])))) s rest
      at reads
    simp only [Reads.append_iff, ← first, ← opened_iff, ← second] at reads
    obtain ⟨b, ⟨a, word, a', declares, ending⟩, d, ⟨c, parens, function⟩, e, opening,
      f, ⟨e', parameter, closing⟩, body⟩ := reads
    exact ⟨a, word, _, declares, b, ending, c, parens, d, function, e, opening, _, parameter,
      f, closing, _, body, rfl, rfl, rfl⟩

theorem flat?_eq_some_iff :
    flat? s = some ⟨declared, used, rest⟩ ↔ Reads (fills declared used) s rest := by
  have first : ∀ {n s t}, _ ↔ Reads [keyword, nonempty gap, name n, gap, text ['=']] s t :=
    declared_iff (.text (by decide))
  have literal : ∀ {s t}, expect ['\x7d'] (s.dropWhile isPlain) = some t ↔
      Reads [run isPlain, text ['\x7d']] s t := token_iff (by decide)
  have access : ∀ {s t}, (expect ['.'] (trimStart s) <|> expect ['['] (trimStart s)) = some t ↔
      Reads [gap, either (text ['.']) (text ['['])] s t := (either_iff fun _ => rfl).trans
    (Apart.either (.text (by decide)) (.text (by decide))).row.dropWhile_iff
  have second : ∀ {n s t}, _ ↔ Reads [gap, name n, gap, either (text ['.']) (text ['['])] s t :=
    trimmed_name_iff (.either (.text (by decide)) (.text (by decide)))
  simp (disch := decide) only [flat?, Option.bind_eq_bind, Option.bind_eq_some_iff,
    Option.pure_def, Option.some.injEq, Find.mk.injEq, sign_iff, literal, access]
  constructor
  · rintro ⟨a, word, ⟨n, a'⟩, declares, b, sign, c, opening, d, closing, e, ending, ⟨m, e'⟩,
      owner, t, member, rfl, rfl, rfl⟩
    exact (first.mp ⟨a, word, a', declares, sign⟩).append (opening.append (closing.append
      (ending.append (second.mp ⟨e', owner, member⟩))))
  · intro reads
    change Reads ([keyword, nonempty gap, name declared, gap, text ['=']] ++
      ([gap, text ['\x7b']] ++ ([run isPlain, text ['\x7d']] ++ ([gap, text [';']] ++
        [gap, name used, gap, either (text ['.']) (text ['['])])))) s rest at reads
    simp only [Reads.append_iff, ← first, ← second] at reads
    obtain ⟨b, ⟨a, word, a', declares, sign⟩, c, opening, d, closing, e, ending, e', owner,
      member⟩ := reads
    exact ⟨a, word, _, declares, b, sign, c, opening, d, closing, e, ending, _, owner, _, member,
      rfl, rfl, rfl⟩

theorem annotation?_eq_some_iff : annotation? s = some rest ↔ Reads annotates s rest := by
  have tag : ∀ {s t}, expect "@enum".toList (trimStart s) = some t ↔
      Reads [gap, text "@enum".toList] s t := token_iff (by decide)
  have ending : ∀ {s t}, expect "*/".toList (trimStart s) = some t ↔
      Reads [gap, text "*/".toList] s t := token_iff (by decide)
  have type : ∀ {s t}, (∃ n u, run? isWord s = some (n, u) ∧ expect ['\x7d'] u = some t) ↔
      Reads [nonempty (run isWord), text ['\x7d']] s t := by
    intro s t
    have apart : (row [text ['\x7d']]).Apart isWord := (Apart.text (by decide)).row
    simp only [expect_eq_some_iff, apart.run?_iff]
    exact Reads.exists_text_iff
  simp (disch := decide) only [annotation?, Option.bind_eq_bind, Option.bind_eq_some_iff,
    sign_iff, tag, ending]
  constructor
  · rintro ⟨a, start, b, tagged, c, opening, ⟨n, d⟩, word, e, closing, ended⟩
    exact (expect_eq_some_iff.mp start).append (tagged.append (opening.append
      ((type.mp ⟨n, d, word, closing⟩).append ended)))
  · intro reads
    change Reads ([text "/**".toList] ++ ([gap, text "@enum".toList] ++ ([gap, text ['\x7b']] ++
      ([nonempty (run isWord), text ['\x7d']] ++ [gap, text "*/".toList])))) s rest at reads
    simp only [Reads.append_iff, ← type, ← expect_eq_some_iff] at reads
    obtain ⟨a, start, b, tagged, c, opening, e, ⟨n, d, word, closing⟩, ended⟩ := reads
    exact ⟨a, start, b, tagged, c, opening, _, word, e, closing, ended⟩

end Patterns

end PureEnum.Screen
