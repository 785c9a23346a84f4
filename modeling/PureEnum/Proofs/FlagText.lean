import Mathlib.Data.Nat.Digits.Defs
import PureEnum.Proofs.Flags

/-! Texts of flags, right and wrong ones. A text stands for a set in many ways: its pieces may come
in any order and more than once, with any blanks around them, and any of the flags may be part of
a number. One piece that stands for nothing spoils the text, and which error is reported depends
on this piece only. -/
namespace PureEnum

inductive OneFlaw {α β : Type} (good bad : α → β → Prop) : List α → List β → Prop where
  | here {x y xs ys} (flaw : bad x y) (others : List.Forall₂ good xs ys) :
    OneFlaw good bad (x :: xs) (y :: ys)
  | later {x y xs ys} (first : good x y) (flaw : OneFlaw good bad xs ys) :
    OneFlaw good bad (x :: xs) (y :: ys)

section Items

variable {ε α β : Type} {read : β → Except ε α} {good bad : α → β → Prop} {e : ε}
  {xs : List α} {ys : List β}

theorem mapM_eq_ok_of_forall₂ (each : List.Forall₂ good xs ys)
    (reads : ∀ x ∈ xs, ∀ y, good x y → read y = .ok x) : ys.mapM read = .ok xs := by
  induction each with
  | nil => rfl
  | @cons x y xs ys first others ih =>
    have rest := ih fun x member => reads x (List.mem_cons_of_mem _ member)
    rw [List.mapM_cons, reads x List.mem_cons_self y first, rest]
    rfl

theorem forall_mem_of_forall₂ {P : β → Prop} (each : List.Forall₂ good xs ys)
    (sound : ∀ x y, good x y → P y) : ∀ y ∈ ys, P y := by
  induction each with
  | nil => exact List.forall_mem_nil P
  | cons first _ ih => exact List.forall_mem_cons.mpr ⟨sound _ _ first, ih⟩

theorem OneFlaw.forall_mem {P : β → Prop} (one : OneFlaw good bad xs ys)
    (sound : ∀ x y, good x y → P y) (flawed : ∀ x y, bad x y → P y) : ∀ y ∈ ys, P y := by
  induction one with
  | here flaw others =>
    exact List.forall_mem_cons.mpr ⟨flawed _ _ flaw, forall_mem_of_forall₂ others sound⟩
  | later first _ ih => exact List.forall_mem_cons.mpr ⟨sound _ _ first, ih⟩

/-- A list is not read when one of its items is not, and the error is that of the item. -/
theorem mapM_eq_error (one : OneFlaw good bad xs ys)
    (reads : ∀ x ∈ xs, ∀ y, good x y → read y = .ok x)
    (fails : ∀ x ∈ xs, ∀ y, bad x y → read y = .error e) : ys.mapM read = .error e := by
  induction one with
  | @here x y xs ys flaw _ =>
    rw [List.mapM_cons, fails x List.mem_cons_self y flaw]
    rfl
  | @later x y xs ys first _ ih =>
    have rest := ih (fun x member => reads x (List.mem_cons_of_mem _ member))
      fun x member => fails x (List.mem_cons_of_mem _ member)
    rw [List.mapM_cons, reads x List.mem_cons_self y first, rest]
    rfl

end Items

/-! ### Numbers -/

namespace Text

def Hex (n : Nat) (s : List Char) : Prop :=
  s ≠ [] ∧ ∃ ds : List Nat, n = Nat.ofDigits 16 ds.reverse ∧
    List.Forall₂ (fun d c => d < 16 ∧ (c = d.digitChar ∨ c = d.digitChar.toUpper)) ds s

theorem hexValue?_eq_some_iff {c : Char} {d : Nat} :
    hexValue? c = some d ↔ d < 16 ∧ (c = d.digitChar ∨ c = d.digitChar.toUpper) := by
  constructor
  · intro value
    have bound : c.toNat < 103 := by
      rw [hexValue?] at value
      split_ifs at value with digit lower upper
      · simp only [Char.isDigit, Bool.and_eq_true, decide_eq_true_eq] at digit
        exact Nat.lt_of_le_of_lt (UInt32.le_iff_toNat_le.mp digit.2) (by decide)
      · exact Nat.lt_succ_of_le (UInt32.le_iff_toNat_le.mp lower.2)
      · exact Nat.lt_of_le_of_lt (UInt32.le_iff_toNat_le.mp upper.2) (by decide)
    have each : ∀ n < 103, ∀ d ∈ hexValue? (Char.ofNat n),
        d < 16 ∧ (Char.ofNat n = d.digitChar ∨ Char.ofNat n = d.digitChar.toUpper) := by
      decide +kernel
    have here := each c.toNat bound d
    rw [Char.ofNat_toNat] at here
    exact here value
  · have each : ∀ d < 16, hexValue? d.digitChar = some d ∧
        hexValue? d.digitChar.toUpper = some d := by decide +kernel
    rintro ⟨small, rfl | rfl⟩
    · exact (each d small).1
    · exact (each d small).2

theorem mapM_eq_some_iff {α β : Type} {f : α → Option β} {xs : List α} {ys : List β} :
    xs.mapM f = some ys ↔ List.Forall₂ (fun y x => f x = some y) ys xs := by
  induction xs generalizing ys with
  | nil => simp [eq_comm]
  | cons x xs ih =>
    rw [List.mapM_cons, List.forall₂_cons_right_iff]
    cases here : f x with
    | none => simp
    | some y => cases rest : xs.mapM f <;> simp [← ih, rest, eq_comm]

theorem ofHex?_eq_some_iff {s : List Char} {n : Nat} (filled : s ≠ []) :
    ofHex? s = some n ↔ Hex n s := by
  have value (ds : List Nat) :
      ds.foldl (fun n d => 16 * n + d) 0 = Nat.ofDigits 16 ds.reverse := by
    rw [Nat.ofDigits_eq_foldr, List.foldr_reverse]
    simp only [Nat.cast_id, Nat.add_comm]
  simp only [ofHex?, Option.map_eq_some_iff, mapM_eq_some_iff, hexValue?_eq_some_iff, value]
  constructor
  · rintro ⟨ds, each, rfl⟩
    exact ⟨filled, ds, rfl, each⟩
  · rintro ⟨-, ds, rfl, each⟩
    exact ⟨ds, each, rfl⟩

theorem Hex.digit_of_mem {n : Nat} {s : List Char} (hex : Hex n s) {c : Char} (member : c ∈ s) :
    ∃ d < 16, c = d.digitChar ∨ c = d.digitChar.toUpper := by
  obtain ⟨-, ds, -, each⟩ := hex
  induction each with
  | nil => contradiction
  | @cons d _ _ _ first _ ih =>
    rcases List.mem_cons.mp member with rfl | member
    · exact ⟨d, first⟩
    · exact ih member

end Text

namespace Modifiers

open Text

def Number (n : Nat) (s : List Char) : Prop := Hex n s ∨ ∃ digits, s = '+' :: digits ∧ Hex n digits

theorem hexNumber?_eq_some_iff {s : List Char} {n : Nat} :
    hexNumber? s = some n ↔ Number n s := by
  have sign (digits : List Char) : ¬ Hex n ('+' :: digits) := by
    rintro ⟨-, ds, -, each⟩
    obtain ⟨d, ds, first, -, -⟩ := List.forall₂_cons_right_iff.mp each
    have value := hexValue?_eq_some_iff.mpr first
    contradiction
  have read (digits : List Char) :
      (if digits = [] then none else ofHex? digits) = some n ↔ Hex n digits := by
    split_ifs with none
    · simp [Hex, none]
    · exact ofHex?_eq_some_iff none
  refine (read _).trans ?_
  split_ifs with signed
  · cases s with
    | nil => contradiction
    | cons c digits =>
      obtain rfl := Option.some.inj signed
      simp [Number, sign]
  · have plain : ∀ digits, s ≠ '+' :: digits := by
      rintro digits rfl
      exact signed rfl
    simp [Number, plain]

/-! ### Pieces -/

/-- What stands for a set: the name of a flag, or a number of at most eight bits. -/
inductive Piece : Modifiers → List Char → Prop where
  | name (m : Modifier) : Piece ⟨m.mask⟩ m.name.toList
  | number {n : Nat} {digits : List Char} (room : n < 256) (number : Number n digits) :
    Piece ⟨BitVec.ofNat 8 n⟩ ('0' :: 'x' :: digits)

/-- What stands for nothing: no text, no number of at most eight bits behind the mark of one, or a
name that no flag has. -/
inductive BadPiece : FlagError → List Char → Prop where
  | empty : BadPiece .empty []
  | number {digits : List Char} (none : ∀ n < 256, ¬ Number n digits) :
    BadPiece .badHex ('0' :: 'x' :: digits)
  | unnamed {s : List Char} (filled : s ≠ []) (plain : ¬ ['0', 'x'] <+: s)
    (none : ∀ m : Modifier, s ≠ m.name.toList) : BadPiece .unnamed s

theorem Piece.ofPiece_eq {m : Modifiers} {s : List Char} (piece : Piece m s) :
    ofPiece s = .ok m := by
  cases piece with
  | name m => exact ofPiece_name m
  | @number n digits room number =>
    rw [ofPiece, if_neg (List.cons_ne_nil _ _)]
    simp only [hexNumber?_eq_some_iff.mpr number, if_pos room]

theorem BadPiece.ofPiece_eq {e : FlagError} {s : List Char} (piece : BadPiece e s) :
    ofPiece s = .error e := by
  cases piece with
  | empty => rfl
  | @number digits none =>
    rw [ofPiece, if_neg (List.cons_ne_nil _ _)]
    cases read : hexNumber? digits with
    | none => rfl
    | some n =>
      have large : ¬ n < 256 := fun room => none n room (hexNumber?_eq_some_iff.mp read)
      simp only [if_neg large]
  | unnamed filled plain none =>
    have unknown : Modifier.all.find? (fun m => m.name.toList == s) = .none :=
      List.find?_eq_none.mpr fun m _ same => none m (eq_of_beq same).symm
    rw [ofPiece.eq_def, if_neg filled]
    split
    · exact absurd (List.prefix_append ..) plain
    · rw [unknown]

theorem Piece.solid {m : Modifiers} {s : List Char} (piece : Piece m s) : Solid s := by
  cases piece with
  | name m => cases m <;> exact ⟨by decide, by decide⟩
  | @number n digits room number =>
    have apart : ∀ d < 16, (d.digitChar != '|' && !isBlank d.digitChar) ∧
        (d.digitChar.toUpper != '|' && !isBlank d.digitChar.toUpper) := by decide +kernel
    have inside {digits : List Char} (hex : Hex n digits) :
        ∀ c ∈ digits, (c != '|' && !isBlank c) := by
      intro c member
      obtain ⟨d, small, rfl | rfl⟩ := hex.digit_of_mem member
      · exact (apart d small).1
      · exact (apart d small).2
    refine ⟨List.cons_ne_nil _ _, List.all_eq_true.mpr ?_⟩
    refine List.forall_mem_cons.mpr ⟨rfl, List.forall_mem_cons.mpr ⟨rfl, ?_⟩⟩
    rcases number with hex | ⟨digits, rfl, hex⟩
    · exact inside hex
    · exact List.forall_mem_cons.mpr ⟨rfl, inside hex⟩

/-! ### Texts -/

/-- A text of a set: blanks where the set is empty, or pieces with blanks around them and bars
between them, which stand for all of the set together. -/
def Spelled (m : Modifiers) (t : List Char) : Prop :=
  (m = empty ∧ ∀ c ∈ t, isBlank c) ∨
  ∃ parts pieces padded, parts ≠ [] ∧ parts.foldl union empty = m ∧
    List.Forall₂ Piece parts pieces ∧ List.Forall₂ Padded pieces padded ∧
    t = ['|'].intercalate padded

/-- A text of a set with a bad piece, in place of one for some part of the set. A text of blanks
only has no pieces. -/
def Spoiled (m : Modifiers) (e : FlagError) (t : List Char) : Prop :=
  ∃ parts pieces padded, parts.foldl union empty = m ∧
    OneFlaw Piece (fun _ piece => BadPiece e piece ∧ Cut piece) parts pieces ∧
    List.Forall₂ Padded pieces padded ∧ t = ['|'].intercalate padded ∧ ∃ c ∈ t, isBlank c = false

/-- Any text of a set is read as that set. -/
theorem Spelled.ofChars_eq {m : Modifiers} {t : List Char} (spelled : Spelled m t) :
    ofChars t = .ok m := by
  rcases spelled with ⟨rfl, blank⟩ | ⟨parts, pieces, padded, some, rfl, each, pads, rfl⟩
  · have none : trim (t ++ [] ++ []) = [] := trim_pad blank (List.forall_mem_nil _) []
    rw [List.append_nil, List.append_nil] at none
    rw [ofChars, if_pos none]
  · have solid : ∀ piece ∈ pieces, Solid piece := forall_mem_of_forall₂ each fun _ _ => Piece.solid
    have nonempty : pieces ≠ [] := by
      rintro rfl
      exact some (List.forall₂_nil_right_iff.mp each)
    exact ofChars_padded pads nonempty solid
      (mapM_eq_ok_of_forall₂ each fun _ _ _ => Piece.ofPiece_eq)

/-- A text with a bad piece is not read, and the error is the one of the piece. -/
theorem Spoiled.ofChars_eq {m : Modifiers} {e : FlagError} {t : List Char}
    (spoiled : Spoiled m e t) : ofChars t = .error e := by
  obtain ⟨parts, pieces, padded, -, flaw, pads, rfl, c, member, solid⟩ := spoiled
  have cut : ∀ piece ∈ pieces, Cut piece :=
    flaw.forall_mem (fun _ _ piece => piece.solid.cut) fun _ _ bad => bad.2
  have fails : pieces.mapM ofPiece = .error e :=
    mapM_eq_error flaw (fun _ _ _ => Piece.ofPiece_eq) fun _ _ _ bad => bad.1.ofPiece_eq
  rw [ofChars_intercalate pads cut (List.ne_nil_of_mem (mem_trim member solid)), fails]
  rfl

theorem forall₂_parts (m : Modifiers) :
    List.Forall₂ Piece m.parts (m.pieces.map String.toList) := by
  have names : List.Forall₂ Piece ((Modifier.all.filter m.has).map fun m => ⟨m.mask⟩)
      (((Modifier.all.filter m.has).map Modifier.name).map String.toList) := by
    rw [List.map_map, List.forall₂_map_left_iff, List.forall₂_map_right_iff, List.forall₂_same]
    exact fun m _ => .name m
  have rest : List.Forall₂ Piece (if m.unnamed = 0 then [] else [⟨m.unnamed⟩])
      ((if m.unnamed = 0 then [] else [hexPiece m.unnamed]).map String.toList) := by
    split
    · exact .nil
    · refine .cons ?_ .nil
      have digits : ∀ bits : BitVec 8,
          ofHex? (Nat.toDigits 16 bits.toNat) = some bits.toNat := by decide +kernel
      have filled : Nat.toDigits 16 m.unnamed.toNat ≠ [] := by simp
      have number := (ofHex?_eq_some_iff filled).mp (digits m.unnamed)
      have piece := Piece.number m.unnamed.isLt (.inl number)
      rwa [BitVec.ofNat_toNat, BitVec.setWidth_eq, ← toList_hexPiece] at piece
  rw [parts, pieces, List.map_append]
  exact List.rel_append names rest

/-- The written form of a set is a text of it. -/
theorem spelled_text (m : Modifiers) : Spelled m m.text.toList := by
  have written : m.text.toList = " | ".toList.intercalate (m.pieces.map String.toList) :=
    String.toList_intercalate
  have each := m.forall₂_parts
  by_cases none : m.parts = []
  · have whole := m.union_parts
    rw [none] at each whole
    rw [List.forall₂_nil_left_iff.mp each] at written
    exact .inl ⟨whole.symm, by simp [written]⟩
  · have nonempty : m.pieces.map String.toList ≠ [] := by
      intro all
      rw [all] at each
      exact none (List.forall₂_nil_right_iff.mp each)
    obtain ⟨padded, pads, same⟩ := exists_padded nonempty (show ∀ c ∈ [], isBlank c by simp)
    refine .inr ⟨_, _, padded, none, m.union_parts, each, pads, ?_⟩
    rw [written, ← same, List.nil_append]

end Modifiers
end PureEnum
