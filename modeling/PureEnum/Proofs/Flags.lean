import Mathlib.Data.List.Forall2
import PureEnum.Tree.Modifiers

/-! Written flags. Whatever blanks stand around the pieces between the bars, a text is cut into
these pieces again, and each piece stands for its own bits. So the written form of a set of flags
reads as that set, bits without a name included. -/
namespace PureEnum

/-- Reading succeeds on a list when it does on every item. -/
theorem mapM_eq_ok {ε α β : Type} {read : α → Except ε β} {value : α → β} {items : List α}
    (reads : ∀ x ∈ items, read x = .ok (value x)) : items.mapM read = .ok (items.map value) := by
  induction items with
  | nil => rfl
  | cons x items ih =>
    have rest := ih fun y member => reads y (List.mem_cons_of_mem x member)
    rw [List.mapM_cons, reads x List.mem_cons_self, rest]
    rfl

theorem mapM_append_ok {ε α β : Type} {read : α → Except ε β} {left right : List α}
    {first second : List β} (one : left.mapM read = .ok first)
    (other : right.mapM read = .ok second) : (left ++ right).mapM read = .ok (first ++ second) := by
  rw [List.mapM_append, one]
  change (right.mapM read >>= _) = _
  rw [other]
  rfl

namespace Modifiers

open Text

/-- A piece of a written set of flags: not empty, and no bar or blank in it. -/
def Solid (piece : List Char) : Prop := piece ≠ [] ∧ piece.all fun c => c != '|' && !isBlank c

def Padded (piece s : List Char) : Prop := ∃ front back,
  s = front ++ piece ++ back ∧ (∀ c ∈ front, isBlank c) ∧ ∀ c ∈ back, isBlank c

theorem Solid.of_mem {piece : List Char} (solid : Solid piece) {c : Char} (member : c ∈ piece) :
    c ≠ '|' ∧ isBlank c = false := by
  simpa using List.all_eq_true.mp solid.2 c member

theorem Solid.trim_eq {piece : List Char} (solid : Solid piece) : trim piece = piece := by
  have keeps : ∀ s : List Char, (∀ c ∈ s, isBlank c = false) → trimStart s = s := by
    intro s inside
    cases s with
    | nil => rfl
    | cons c s => exact List.dropWhile_cons_of_neg (by simp [inside c List.mem_cons_self])
  have inside : ∀ c ∈ piece, isBlank c = false := fun c member => (solid.of_mem member).2
  rw [trim, keeps piece inside, keeps _ fun c member => inside c (List.mem_reverse.mp member),
    List.reverse_reverse]

/-- Blanks around a piece are not part of it, and no piece goes beyond a bar. -/
def Cut (piece : List Char) : Prop := '|' ∉ piece ∧ trim piece = piece

theorem Solid.cut {piece : List Char} (solid : Solid piece) : Cut piece :=
  ⟨fun member => (solid.of_mem member).1 rfl, solid.trim_eq⟩

namespace Padded

variable {piece s : List Char} (padded : Padded piece s) (cut : Cut piece)
include padded cut

theorem trim_eq : trim s = piece := by
  obtain ⟨front, back, rfl, before, behind⟩ := padded
  rw [trim_pad before behind, cut.2]

theorem bar_notMem : '|' ∉ s := by
  obtain ⟨front, back, rfl, before, behind⟩ := padded
  have blank : isBlank '|' = false := rfl
  intro member
  simp only [List.mem_append] at member
  rcases member with (member | member) | member
  · have := before _ member
    contradiction
  · exact cut.1 member
  · have := behind _ member
    contradiction

end Padded

/-- Padded pieces have no bars, and trimming gives the pieces. -/
theorem map_trim_padded {pieces padded : List (List Char)}
    (pads : List.Forall₂ Padded pieces padded) (cut : ∀ piece ∈ pieces, Cut piece) :
    (∀ s ∈ padded, '|' ∉ s) ∧ padded.map trim = pieces := by
  induction pads with
  | nil => exact ⟨by simp, rfl⟩
  | cons pad pads ih =>
    have first := cut _ List.mem_cons_self
    obtain ⟨apart, trimmed⟩ := ih fun piece member => cut piece (List.mem_cons_of_mem _ member)
    constructor
    · exact List.forall_mem_cons.mpr ⟨pad.bar_notMem first, apart⟩
    · rw [List.map_cons, pad.trim_eq first, trimmed]

theorem trim_padded_ne_nil {pieces padded : List (List Char)}
    (pads : List.Forall₂ Padded pieces padded) (nonempty : pieces ≠ [])
    (solid : ∀ piece ∈ pieces, Solid piece) : trim (['|'].intercalate padded) ≠ [] := by
  cases pads with
  | nil => contradiction
  | @cons piece s pieces padded pad pads =>
    have first := solid piece List.mem_cons_self
    obtain ⟨c, rest, rfl⟩ := List.exists_cons_of_ne_nil first.1
    have start : s <+: ['|'].intercalate (s :: padded) := by
      cases padded with
      | nil => simp
      | cons => simp [List.intercalate_cons_cons]
    obtain ⟨front, back, rfl, -⟩ := pad
    have member : c ∈ ['|'].intercalate ((front ++ (c :: rest) ++ back) :: padded) :=
      start.subset (by simp)
    exact List.ne_nil_of_mem (mem_trim member (first.of_mem List.mem_cons_self).2)

/-- A text that is not blank is cut at its bars, and its pieces are read one by one. -/
theorem ofChars_intercalate {pieces padded : List (List Char)}
    (pads : List.Forall₂ Padded pieces padded) (cut : ∀ piece ∈ pieces, Cut piece)
    (filled : trim (['|'].intercalate padded) ≠ []) :
    ofChars (['|'].intercalate padded) =
      return (← pieces.mapM ofPiece).foldl union empty := by
  obtain ⟨apart, trimmed⟩ := map_trim_padded pads cut
  have split : (['|'].intercalate padded).splitOn '|' = padded := by
    apply List.splitOn_intercalate '|' apart
    rintro rfl
    contradiction
  rw [ofChars, if_neg filled, split, ← trimmed, List.mapM_map]
  rfl

/-- Padded pieces between bars are read one by one. -/
theorem ofChars_padded {pieces padded : List (List Char)} {parts : List Modifiers}
    (pads : List.Forall₂ Padded pieces padded) (nonempty : pieces ≠ [])
    (solid : ∀ piece ∈ pieces, Solid piece) (read : pieces.mapM ofPiece = .ok parts) :
    ofChars (['|'].intercalate padded) = .ok (parts.foldl union empty) := by
  have cut : ∀ piece ∈ pieces, Cut piece := fun piece member => (solid piece member).cut
  rw [ofChars_intercalate pads cut (trim_padded_ne_nil pads nonempty solid), read]
  rfl

/-- The bars of a written set of flags have one blank on either side. -/
theorem exists_padded {pieces : List (List Char)} (nonempty : pieces ≠ []) {front : List Char}
    (blank : ∀ c ∈ front, isBlank c) : ∃ padded, List.Forall₂ Padded pieces padded ∧
      front ++ " | ".toList.intercalate pieces = ['|'].intercalate padded := by
  induction pieces generalizing front with
  | nil => contradiction
  | cons piece pieces ih =>
    cases pieces with
    | nil =>
      refine ⟨[front ++ piece], .cons ⟨front, [], by simp, blank, by simp⟩ .nil, ?_⟩
      rw [List.intercalate_singleton, List.intercalate_singleton]
    | cons next pieces =>
      have one : ∀ c ∈ [' '], isBlank c := List.forall_mem_singleton.mpr rfl
      obtain ⟨padded, pads, same⟩ := ih (List.cons_ne_nil _ _) one
      refine ⟨(front ++ piece ++ [' ']) :: padded,
        .cons ⟨front, [' '], rfl, blank, one⟩ pads, ?_⟩
      cases pads with
      | cons =>
        rw [List.intercalate_cons_cons, List.intercalate_cons_cons, ← same]
        simp

def parts (a : Modifiers) : List Modifiers :=
  (Modifier.all.filter a.has).map (fun m => ⟨m.mask⟩) ++
    if a.unnamed = 0 then [] else [⟨a.unnamed⟩]

/-- Each bit is in the part of its modifier or in the unnamed part. -/
theorem union_parts (a : Modifiers) : a.parts.foldl union empty = a := by
  obtain ⟨bits⟩ := a
  revert bits
  decide +kernel

theorem ofPiece_name (m : Modifier) : ofPiece m.name.toList = .ok ⟨m.mask⟩ := by
  cases m <;> rfl

def hexPiece (bits : BitVec 8) : String := "0x" ++ String.ofList (Nat.toDigits 16 bits.toNat)

theorem toList_hexPiece (bits : BitVec 8) :
    (hexPiece bits).toList = '0' :: 'x' :: Nat.toDigits 16 bits.toNat := by
  simp [hexPiece]

theorem ofPiece_hexPiece (bits : BitVec 8) : ofPiece (hexPiece bits).toList = .ok ⟨bits⟩ := by
  rw [toList_hexPiece]
  revert bits
  decide +kernel

theorem solid_of_mem_pieces {a : Modifiers} {piece : String} (member : piece ∈ a.pieces) :
    Solid piece.toList := by
  have names : ∀ m : Modifier, Solid m.name.toList := by
    intro m
    cases m <;> exact ⟨by decide, by decide⟩
  have numbers : ∀ bits : BitVec 8, Solid (hexPiece bits).toList := by
    have digits : ∀ bits : BitVec 8, ('0' :: 'x' :: Nat.toDigits 16 bits.toNat).all
        (fun c => c != '|' && !isBlank c) := by decide +kernel
    intro bits
    rw [toList_hexPiece]
    exact ⟨List.cons_ne_nil _ _, digits bits⟩
  rw [pieces] at member
  rcases List.mem_append.mp member with named | unnamed
  · obtain ⟨m, -, rfl⟩ := List.mem_map.mp named
    exact names m
  · split at unnamed
    · contradiction
    · rw [List.mem_singleton.mp unnamed]
      exact numbers a.unnamed

/-- The pieces are read as the parts. -/
theorem mapM_pieces (a : Modifiers) :
    (a.pieces.map String.toList).mapM ofPiece = .ok a.parts := by
  have names : ((Modifier.all.filter a.has).map fun m => m.name.toList).mapM ofPiece =
      .ok ((Modifier.all.filter a.has).map fun m => ⟨m.mask⟩) := by
    rw [List.mapM_map]
    exact mapM_eq_ok fun m _ => ofPiece_name m
  have rest : ((if a.unnamed = 0 then [] else [hexPiece a.unnamed]).map String.toList).mapM
      ofPiece = .ok (if a.unnamed = 0 then [] else [⟨a.unnamed⟩]) := by
    split
    · rfl
    · change (ofPiece (hexPiece a.unnamed).toList >>= _) = _
      rw [ofPiece_hexPiece]
      rfl
  rw [pieces, List.map_append, List.map_map]
  exact mapM_append_ok names rest

/-- The written form of a set of flags reads as that set. -/
theorem ofText_text (a : Modifiers) : ofText a.text = .ok a := by
  have written : a.text.toList = " | ".toList.intercalate (a.pieces.map String.toList) :=
    String.toList_intercalate
  rw [ofText, written]
  by_cases none : a.pieces = []
  · have all : a.parts = [] := by
      have read := a.mapM_pieces
      rw [none] at read
      exact (Except.ok.inj read).symm
    have whole := a.union_parts
    rw [all] at whole
    rw [none, ← whole]
    rfl
  · have nonempty : a.pieces.map String.toList ≠ [] := by simpa using none
    obtain ⟨padded, pads, same⟩ := exists_padded nonempty (show ∀ c ∈ [], isBlank c by simp)
    rw [List.nil_append] at same
    rw [same, ← a.union_parts]
    apply ofChars_padded pads nonempty _ a.mapM_pieces
    intro piece member
    obtain ⟨piece, inside, rfl⟩ := List.mem_map.mp member
    exact solid_of_mem_pieces inside

end Modifiers
end PureEnum
