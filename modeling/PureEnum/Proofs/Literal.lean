import PureEnum.Proofs.Printing
import PureEnum.Text.Literal

/-! Printed literals. Each character of a text is escaped by itself, and each escape is read back
as its character, whatever is behind it, but for the null character: in front of a decimal digit
its escape is refused. So a printed literal is read up to its closing quote and has the value of
its text exactly if no null character stands before a digit in it. -/
namespace PureEnum

namespace Text

theorem hexValue?_hexDigit {n : Nat} (digit : n < 16) : hexValue? (hexDigit n) = some n := by
  revert n
  decide

/-- Four digits are read back as the code they were written for. -/
theorem ofHex?_hexFour {n : Nat} (short : n < 0x10000) : ofHex? (hexFour n) = some n := by
  have digit (k : Nat) : hexValue? (hexDigit (k % 16)) = some (k % 16) :=
    hexValue?_hexDigit (Nat.mod_lt k (by decide))
  simp only [ofHex?, hexFour, List.mapM_cons, List.mapM_nil, digit, Option.pure_def,
    Option.bind_eq_bind, Option.bind_some, Option.map_some, List.foldl_cons, List.foldl_nil]
  congr 1
  omega

/-! ### Units -/

theorem units_eq {n : Nat} (short : n < 0x10000) : units n = [n] := if_pos short

/-- No character has the code of half a pair. -/
theorem toNat_not_half (c : Char) : c.toNat < 0xD800 ∨ 0xDFFF < c.toNat ∧ c.toNat < 0x110000 :=
  c.valid

/-- The units in front tell the character in front. -/
theorem units_append_inj {a b : Char} {us vs : List Nat}
    (same : units a.toNat ++ us = units b.toNat ++ vs) : a = b ∧ us = vs := by
  have noHalf := toNat_not_half a
  have noHalf' := toNat_not_half b
  have number : a.toNat = b.toNat ∧ us = vs := by
    unfold units at same
    split at same <;> split at same <;>
      simp only [List.cons_append, List.nil_append, List.cons.injEq] at same <;>
      refine ⟨by omega, ?_⟩
    · exact same.2
    · omega
    · omega
    · exact same.2.2
  exact ⟨Char.toNat_inj.mp number.1, number.2⟩

/-- Texts of one value are one text. -/
theorem unitsOf_injective {s t : List Char} (same : unitsOf s = unitsOf t) : s = t := by
  have some (c : Char) : units c.toNat ≠ [] := by
    unfold units
    split <;> exact List.cons_ne_nil _ _
  induction s generalizing t with
  | nil =>
    cases t with
    | nil => rfl
    | cons c t => simp_all [unitsOf]
  | cons c s ih =>
    cases t with
    | nil => simp_all [unitsOf]
    | cons d t =>
      simp only [unitsOf, List.flatMap_cons] at same
      obtain ⟨rfl, rest⟩ := units_append_inj same
      rw [ih rest]

namespace Literal

def nullBeforeDigit : List Char → Bool
  | c :: d :: s => c == '\x00' && d.isDigit || nullBeforeDigit (d :: s)
  | [_] | [] => false

/-- What is escaped is no digit and begins with a backslash; all else is no quote. -/
theorem escape_cases (c : Char) :
    (c.isDigit = false ∧ ∃ t, escape c = '\x5c' :: t) ∨ c ≠ '\x22' ∧ escape c = [c] := by
  unfold escape
  split_ifs with quote slash line ret tab null control
  · subst c; exact .inl ⟨rfl, _, rfl⟩
  · subst c; exact .inl ⟨rfl, _, rfl⟩
  · subst c; exact .inl ⟨rfl, _, rfl⟩
  · subst c; exact .inl ⟨rfl, _, rfl⟩
  · subst c; exact .inl ⟨rfl, _, rfl⟩
  · subst c; exact .inl ⟨rfl, _, rfl⟩
  · refine .inl ⟨?_, _, rfl⟩
    simp only [Bool.or_eq_true, decide_eq_true_eq, beq_iff_eq] at control
    simp only [Char.isDigit, Bool.and_eq_false_iff, decide_eq_false_iff_not]
    change ¬48 ≤ c.toNat ∨ ¬c.toNat ≤ 57
    omega
  · exact .inr ⟨quote, rfl⟩

/-- Behind an escape a digit is seen only where the next character is one. -/
theorem any_head?_escaped (s behind : List Char) :
    (s.flatMap escape ++ '\x22' :: behind).head?.any Char.isDigit = s.head?.any Char.isDigit := by
  cases s with
  | nil => rfl
  | cons c s =>
    rcases escape_cases c with ⟨other, t, same⟩ | ⟨-, same⟩
    · simp [List.flatMap_cons, same, other]
    · simp [List.flatMap_cons, same]

theorem escaped?_hexFour {n : Nat} (short : n < 0x10000) (s : List Char) :
    escaped? ('u' :: (hexFour n ++ s)) = some (units n, s) := by
  have read := ofHex?_hexFour short
  have unbraced : ∀ k < 16, hexDigit k ≠ '\x7b' := by decide
  have first := unbraced (n / 4096 % 16) (Nat.mod_lt _ (by decide))
  rw [hexFour] at read
  simp only [hexFour, List.cons_append, List.nil_append]
  rw [escaped?, read, units_eq short]
  · rfl
  · exact first

/-- Any character but the null character is read back from its escape, whatever is behind it. -/
theorem next?_escape {c : Char} (other : c ≠ '\x00') (s : List Char) :
    next? (escape c ++ s) = some (units c.toNat, s) := by
  unfold escape
  split_ifs with quote slash line ret tab control
  · subst c; rfl
  · subst c; rfl
  · subst c; rfl
  · subst c; rfl
  · subst c; rfl
  · have short : c.toNat < 0x10000 := by
      simp only [Bool.or_eq_true, decide_eq_true_eq, beq_iff_eq] at control
      omega
    exact escaped?_hexFour short s
  · change next? (c :: s) = _
    rw [next?]
    · simp [line, ret]
    · exact slash

/-- The null character is read back from its escape unless a digit is behind it. -/
theorem next?_escape_null (s : List Char) : next? (escape '\x00' ++ s) =
    if s.head?.any Char.isDigit then none else some (units 0, s) := rfl

theorem nullBeforeDigit_cons (c : Char) (s : List Char) : nullBeforeDigit (c :: s) =
    (c == '\x00' && s.head?.any Char.isDigit || nullBeforeDigit s) := by
  cases s <;> simp [nullBeforeDigit]

theorem body?_escape (c : Char) (s : List Char) (fuel : Nat) : body? (fuel + 1) (escape c ++ s) =
    (do
      let (first, s) ← next? (escape c ++ s)
      let (others, s) ← body? fuel s
      return (first ++ others, s)) := by
  rcases escape_cases c with ⟨-, t, same⟩ | ⟨other, same⟩
  · rw [same]
    rfl
  · rw [same, List.singleton_append, body?]
    rintro t same
    exact other (List.cons.inj same).1

/-- A printed text is read up to the closing quote. -/
theorem body?_escaped (s behind : List Char) {fuel : Nat} (enough : s.length ≤ fuel) :
    body? fuel (s.flatMap escape ++ '\x22' :: behind) =
      if nullBeforeDigit s then none else some (unitsOf s, behind) := by
  induction s generalizing fuel with
  | nil => cases fuel <;> rfl
  | cons c s ih =>
    obtain ⟨fuel, rfl⟩ := Nat.exists_eq_add_one_of_ne_zero (Nat.ne_zero_of_lt enough)
    have rest := ih (Nat.le_of_succ_le_succ enough)
    -- what follows a character that is read is the escaped rest, whatever comes of it
    have first (read : next? (escape c ++ (s.flatMap escape ++ '\x22' :: behind)) =
        some (units c.toNat, s.flatMap escape ++ '\x22' :: behind)) :
        body? (fuel + 1) ((c :: s).flatMap escape ++ '\x22' :: behind) =
          if nullBeforeDigit s then none else some (unitsOf (c :: s), behind) := by
      rw [List.flatMap_cons, List.append_assoc, body?_escape, read]
      change (body? fuel _ >>= _) = _
      rw [rest]
      split <;> rfl
    rw [nullBeforeDigit_cons]
    by_cases null : c = '\x00'
    · subst c
      by_cases digit : s.head?.any Char.isDigit
      · rw [List.flatMap_cons, List.append_assoc, body?_escape, next?_escape_null,
          any_head?_escaped, if_pos digit]
        simp [digit]
      · rw [first (by rw [next?_escape_null, any_head?_escaped, if_neg digit]; rfl)]
        simp [digit]
    · rw [first (next?_escape null _)]
      simp [null]

/-- A printed text is read as a literal, whatever follows it. -/
theorem read?_quoteChars (s behind : List Char) : read? (quoteChars s ++ behind) =
    if nullBeforeDigit s then none else some (unitsOf s, behind) := by
  have longer : s.length ≤ (s.flatMap escape).length := by
    induction s with
    | nil => exact Nat.le_refl 0
    | cons c s ih =>
      have some : 0 < (escape c).length := by
        rcases escape_cases c with ⟨-, t, same⟩ | ⟨-, same⟩ <;> simp [same]
      rw [List.flatMap_cons, List.length_append, List.length_cons]
      omega
  rw [quoteChars, List.append_assoc]
  have enough : s.length ≤ (s.flatMap escape ++ '\x22' :: behind).length := by
    rw [List.length_append]
    exact Nat.le_add_right_of_le longer
  exact body?_escaped s behind enough

end Literal
end Text

namespace Node

open Text

/-- A node without subtrees is printed by its own rule alone. -/
theorem toList_text_of_leaf {n : Node} (leaf : n.children = []) :
    n.text.toList = (Print.layer whole n).chars 0 := by
  have fits : n.height ≤ maxPrintDepth := by
    rw [height_eq, leaf]
    exact Nat.le_of_ble_eq_true rfl
  rw [toList_text fits, whole_eq]

theorem toList_text_stringLiteral (s : String) :
    (stringLiteral s).text.toList = quoteChars s.toList := by
  rw [toList_text_of_leaf rfl, Print.layer, Doc.chars_text, quote, String.toList_ofList]

/-- What is imported from a module is printed alike for every module. -/
theorem toList_text_importDeclaration (primary : Option String) (named : List String) :
    ∃ front, ∀ specifier, (importDeclaration primary named specifier).text.toList =
      front ++ (stringLiteral specifier).text.toList ++ [';'] := by
  obtain ⟨head, parts⟩ : ∃ head : Doc, ∀ specifier, Print.importOf primary named specifier =
      head ++ Doc.text (quote specifier) ++ Doc.text ";" := ⟨_, fun _ => rfl⟩
  refine ⟨head.chars 0, fun specifier => ?_⟩
  rw [toList_text_of_leaf rfl, toList_text_of_leaf rfl, Print.layer, Print.layer, parts,
    Doc.chars_append, Doc.chars_append]
  simp only [Doc.chars_text]
  rfl

/-- A printed literal denotes its text. It is read up to its closing quote, whatever follows it,
and has the value of the text, which no other text has, exactly where no null character stands
before a decimal digit. The name of the module in a printed import is such a literal, between what
is imported, which does not depend on it, and a semicolon. -/
theorem literal_denotes (primary : Option String) (named : List String) :
    ∃ front, ∀ s : String,
      (importDeclaration primary named s).text.toList =
        front ++ (stringLiteral s).text.toList ++ [';'] ∧
      (∀ behind, Literal.read? ((stringLiteral s).text.toList ++ behind) =
        if Literal.nullBeforeDigit s.toList then none else some (unitsOf s.toList, behind)) ∧
      ∀ t : String, unitsOf t.toList = unitsOf s.toList ↔ t = s := by
  obtain ⟨front, imported⟩ := toList_text_importDeclaration primary named
  refine ⟨front, fun s => ⟨imported s, fun behind => ?_, fun t => ⟨fun same => ?_, ?_⟩⟩⟩
  · rw [toList_text_stringLiteral, Literal.read?_quoteChars]
  · exact String.toList_inj.mp (unitsOf_injective same)
  · rintro rfl
    rfl

/-- A null character before a digit is printed as an escape that no program may state. -/
theorem null_before_digit_refused :
    (stringLiteral "\x001").text.toList = "\x22\x5c01\x22".toList ∧
      Literal.read? (stringLiteral "\x001").text.toList ≠ some (unitsOf "\x001".toList, []) := by
  rw [toList_text_stringLiteral]
  decide

end Node
end PureEnum
