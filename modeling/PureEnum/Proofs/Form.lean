import PureEnum.Enum.Screen

/-! Forms of texts, one behind the other in a row. A reader that takes as much as it can of a class
reads what a row asks for, if what stands behind starts outside of the class. -/
namespace PureEnum.Screen

abbrev Form := List Char → Prop

namespace Form

def text (literal : List Char) : Form := fun s => s = literal

def run (p : Char → Bool) : Form := fun s => ∀ c ∈ s, p c

instance (p : Char → Bool) (s : List Char) : Decidable (run p s) :=
  List.decidableBAll (fun c => p c) s

def nonempty (form : Form) : Form := fun s => s ≠ [] ∧ form s

def either (one other : Form) : Form := fun s => one s ∨ other s

def row : List Form → Form
  | [], s => s = []
  | form :: forms, s => ∃ a b, s = a ++ b ∧ form a ∧ row forms b

def many (form : Form) : Form := fun s => ∃ parts : List (List Char),
  s = parts.flatten ∧ ∀ part ∈ parts, form part

theorem run_of_row {p : Char → Bool} {forms : List Form}
    (each : ∀ form ∈ forms, ∀ a, form a → run p a) {s : List Char} (inside : row forms s) :
    run p s := by
  induction forms generalizing s with
  | nil =>
    obtain rfl := inside
    exact List.forall_mem_nil _
  | cons form forms ih =>
    obtain ⟨first, others⟩ := List.forall_mem_cons.mp each
    obtain ⟨a, b, rfl, front, behind⟩ := inside
    exact List.forall_mem_append.mpr ⟨first a front, ih others behind⟩

end Form

open Form

/-- A row of forms stands in front, and this is the text behind it. -/
def Reads (forms : List Form) (s rest : List Char) : Prop :=
  ∃ front, s = front ++ rest ∧ row forms front

namespace Reads

variable {form : Form} {forms others : List Form} {s rest : List Char}

@[simp] theorem nil_iff : Reads [] s rest ↔ s = rest := by simp [Reads, row]

theorem cons_iff : Reads (form :: forms) s rest ↔
    ∃ a t, s = a ++ t ∧ form a ∧ Reads forms t rest := by
  constructor
  · rintro ⟨_, rfl, a, b, rfl, first, others⟩
    exact ⟨a, b ++ rest, List.append_assoc .., first, b, rfl, others⟩
  · rintro ⟨a, _, rfl, first, b, rfl, others⟩
    exact ⟨a ++ b, (List.append_assoc ..).symm, a, b, rfl, first, others⟩

theorem cons {a t : List Char} (first : form a) (behind : Reads forms t rest) :
    Reads (form :: forms) (a ++ t) rest := cons_iff.mpr ⟨a, t, rfl, first, behind⟩

theorem text_iff {literal : List Char} : Reads (text literal :: forms) s rest ↔
    ∃ t, s = literal ++ t ∧ Reads forms t rest := by
  rw [cons_iff]
  constructor
  · rintro ⟨_, t, split, rfl, behind⟩
    exact ⟨t, split, behind⟩
  · rintro ⟨t, split, behind⟩
    exact ⟨literal, t, split, rfl, behind⟩

/-- A form is a choice of texts. -/
theorem exists_text_iff : (∃ a, form a ∧ Reads (text a :: forms) s rest) ↔
    Reads (form :: forms) s rest := by
  rw [cons_iff]
  simp only [text_iff]
  constructor
  · rintro ⟨a, first, t, split, behind⟩
    exact ⟨a, t, split, first, behind⟩
  · rintro ⟨a, t, split, first, behind⟩
    exact ⟨a, first, t, split, behind⟩

/-- Any number of texts of a form is none or one more. -/
theorem many_iff : Reads (many form :: forms) s rest ↔
    Reads forms s rest ∨ ∃ t, Reads [form] s t ∧ Reads (many form :: forms) t rest := by
  constructor
  · intro reads
    obtain ⟨_, t, rfl, ⟨parts, rfl, each⟩, behind⟩ := cons_iff.mp reads
    cases parts with
    | nil => exact .inl behind
    | cons part parts =>
      obtain ⟨first, others⟩ := List.forall_mem_cons.mp each
      refine .inr ⟨parts.flatten ++ t, cons_iff.mpr ⟨part, parts.flatten ++ t, by simp, first,
        by simp⟩, cons_iff.mpr ⟨_, t, rfl, ⟨parts, rfl, others⟩, behind⟩⟩
  · rintro (behind | ⟨t, one, more⟩)
    · exact cons_iff.mpr ⟨[], s, rfl, ⟨[], rfl, by simp⟩, behind⟩
    · obtain ⟨part, u, rfl, first, same⟩ := cons_iff.mp one
      obtain rfl := nil_iff.mp same
      obtain ⟨_, t, rfl, ⟨parts, rfl, others⟩, behind⟩ := cons_iff.mp more
      exact cons_iff.mpr ⟨part ++ parts.flatten, t, by simp, ⟨part :: parts, rfl,
        List.forall_mem_cons.mpr ⟨first, others⟩⟩, behind⟩

theorem append_iff : Reads (forms ++ others) s rest ↔
    ∃ t, Reads forms s t ∧ Reads others t rest := by
  induction forms generalizing s with
  | nil => simp
  | cons form forms ih =>
    simp only [List.cons_append, cons_iff, ih]
    constructor
    · rintro ⟨a, t, split, first, t', second, third⟩
      exact ⟨t', ⟨a, t, split, first, second⟩, third⟩
    · rintro ⟨t', ⟨a, t, split, first, second⟩, third⟩
      exact ⟨a, t, split, first, t', second, third⟩

theorem append {middle : List Char} (first : Reads forms s middle)
    (second : Reads others middle rest) : Reads (forms ++ others) s rest :=
  append_iff.mpr ⟨middle, first, second⟩

theorem row_iff : Reads [row forms] s rest ↔ Reads forms s rest := by
  constructor
  · rintro ⟨_, rfl, a, _, rfl, inside, rfl⟩
    exact ⟨a, by simp, inside⟩
  · rintro ⟨a, rfl, inside⟩
    exact ⟨a, rfl, a, [], by simp, inside, rfl⟩

end Reads

/-- A text of this form starts outside of a class. -/
def Form.Apart (p : Char → Bool) (form : Form) : Prop := ∀ s, form s → s.head?.map p = some false

namespace Form.Apart

variable {p : Char → Bool} {form : Form} {forms : List Form} {s rest : List Char}

theorem row (apart : form.Apart p) : (Form.row (form :: forms)).Apart p := by
  rintro _ ⟨a, b, rfl, first, -⟩
  have stop := apart a first
  cases a with
  | nil => contradiction
  | cons => exact stop

theorem run {q : Char → Bool} (apart : (Form.row forms).Apart p) (other : ∀ c, q c → p c = false) :
    (Form.row (Form.run q :: forms)).Apart p := by
  rintro _ ⟨a, b, rfl, inside, behind⟩
  cases a with
  | nil => exact apart b behind
  | cons c a => exact congrArg some (other c (inside c List.mem_cons_self))

theorem text {literal : List Char} (stop : literal.head?.map p = some false) :
    (Form.text literal).Apart p := by
  rintro _ rfl
  exact stop

theorem either {one other : Form} (first : one.Apart p) (second : other.Apart p) :
    (Form.either one other).Apart p := fun s form => form.elim (first s) (second s)

theorem head? (apart : (Form.row forms).Apart p) (reads : Reads forms s rest) :
    ∃ c t, s = c :: t ∧ p c = false := by
  obtain ⟨front, rfl, inside⟩ := reads
  have stop := apart front inside
  cases front with
  | nil => contradiction
  | cons c front => exact ⟨c, front ++ rest, rfl, Option.some.inj stop⟩

/-- A class is read to its end if what stands behind it starts outside of it. -/
theorem dropWhile_iff (apart : (Form.row forms).Apart p) :
    Reads forms (s.dropWhile p) rest ↔ Reads (Form.run p :: forms) s rest := by
  rw [Reads.cons_iff]
  constructor
  · intro behind
    exact ⟨s.takeWhile p, s.dropWhile p, List.takeWhile_append_dropWhile.symm,
      List.all_eq_true.mp List.all_takeWhile, behind⟩
  · rintro ⟨a, t, rfl, inside, behind⟩
    obtain ⟨c, t, rfl, stop⟩ := apart.head? behind
    rwa [List.dropWhile_append_of_pos inside, List.dropWhile_cons_of_neg (by simp [stop])]

/-- The same of a class of which one character is needed. -/
theorem run?_iff {n : List Char} (apart : (Form.row forms).Apart p) :
    (∃ t, run? p s = some (n, t) ∧ Reads forms t rest) ↔
      nonempty (Form.run p) n ∧ Reads (Form.text n :: forms) s rest := by
  simp only [run?, Option.ite_none_left_eq_some, Option.some.injEq, Prod.mk.injEq, Reads.cons_iff]
  constructor
  · rintro ⟨_, ⟨some, rfl, rfl⟩, behind⟩
    exact ⟨⟨by simpa using some, List.all_eq_true.mp List.all_takeWhile⟩, _, _,
      List.takeWhile_append_dropWhile.symm, rfl, behind⟩
  · rintro ⟨⟨some, inside⟩, m, t, rfl, rfl, behind⟩
    obtain ⟨c, t, rfl, stop⟩ := apart.head? behind
    have taken : (m ++ c :: t).takeWhile p = m := by
      rw [List.takeWhile_append_of_pos inside, List.takeWhile_cons_of_neg (by simp [stop]),
        List.append_nil]
    have left : (m ++ c :: t).dropWhile p = c :: t := by
      rw [List.dropWhile_append_of_pos inside, List.dropWhile_cons_of_neg (by simp [stop])]
    exact ⟨c :: t, ⟨by simpa [taken] using some, taken, left⟩, behind⟩

end Form.Apart

end PureEnum.Screen
