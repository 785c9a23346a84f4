import PureEnum.Proofs.Printing
import PureEnum.Proofs.Screening

/-! Adjacency: statements that follow each other in a scope follow each other in the text, with
nothing but blanks between them. What is in front of them ends with a blank, so a word may start
there, unless it is the start of the text. -/
namespace PureEnum

open Text

/-- Ends with a blank, unless it is empty. -/
def SetOff (before : List Char) : Prop := ∀ c ∈ before.getLast?, isBlank c

namespace SetOff

variable {before : List Char}

theorem nil : SetOff [] := fun _ member => by contradiction

theorem append_cons {gap : List Char} {c : Char} (first : isBlank c)
    (blank : ∀ c ∈ gap, isBlank c) : SetOff (before ++ c :: gap) := by
  intro d last
  rw [List.getLast?_append, List.getLast?_cons] at last
  obtain rfl := Option.some.inj last
  cases ending : gap.getLast? with
  | none => exact first
  | some d => exact blank d (List.mem_of_getLast? ending)

theorem append {gap : List Char} (set : SetOff before) (blank : ∀ c ∈ gap, isBlank c) :
    SetOff (before ++ gap) := by
  cases gap with
  | nil => rwa [List.append_nil]
  | cons c gap =>
    obtain ⟨first, others⟩ := List.forall_mem_cons.mp blank
    exact append_cons first others

/-- Documents that end with a blank each leave the text set off. -/
theorem flatMap {α : Type} {ds : List α} {f : α → List Char}
    (each : ∀ d ∈ ds, ∃ front c, f d = front ++ [c] ∧ isBlank c) (set : SetOff before) :
    SetOff (before ++ ds.flatMap f) := by
  induction ds generalizing before with
  | nil => simpa using set
  | cons d ds ih =>
    obtain ⟨⟨front, c, form, blank⟩, others⟩ := List.forall_mem_cons.mp each
    rw [List.flatMap_cons, ← List.append_assoc]
    refine ih others ?_
    rw [form, ← List.append_assoc]
    exact append_cons blank (List.forall_mem_nil _)

theorem atBoundary (set : SetOff before) : Screen.atBoundary before.getLast? := by
  cases ending : before.getLast? with
  | none => rfl
  | some c =>
    have other := Screen.isNameChar_of_isBlank (set c ending)
    simp only [isNameChar, Bool.or_eq_false_iff] at other
    simp [Screen.atBoundary, other.1]

end SetOff

/-- Two documents stand in a text one behind the other with a gap between them, set off from what
is in front. -/
def Follows (a b : Doc) (s : List Char) : Prop := ∃ level before gap behind, SetOff before ∧
  (∀ c ∈ gap, isBlank c) ∧ s = before ++ (a.chars level ++ (gap ++ (b.chars level ++ behind)))

namespace Print

variable {before after : List Doc} {a b : Doc} {w rest : List Char} {level : Nat}

theorem chars_lines (level : Nat) (ds : List Doc) : (lines ds).chars level =
    ds.flatMap fun d => List.replicate (4 * level) ' ' ++ (d.chars level ++ ['\n']) := by
  simp [lines, List.flatMap_map]

theorem chars_clauseBody (level : Nat) (ds : List Doc) : (clauseBody ds).chars level =
    ds.flatMap fun d =>
      '\n' :: (List.replicate (4 * (level + 1)) ' ' ++ d.chars (level + 1)) := by
  simp [clauseBody, List.flatMap_map]

theorem isBlank_margin {n : Nat} : ∀ c ∈ List.replicate n ' ', isBlank c := by
  intro c member
  rw [List.eq_of_mem_replicate member]
  decide

theorem follows_lines (set : SetOff w) :
    Follows a b (w ++ ((lines (before ++ a :: b :: after)).chars level ++ rest)) := by
  let margin := List.replicate (4 * level) ' '
  let line := fun d : Doc => margin ++ (d.chars level ++ ['\n'])
  have lineEnd : SetOff (w ++ before.flatMap line) :=
    set.flatMap fun d _ => ⟨margin ++ d.chars level, '\n', (List.append_assoc ..).symm, by decide⟩
  refine ⟨level, w ++ before.flatMap line ++ margin, '\n' :: margin,
    '\n' :: (after.flatMap line ++ rest), lineEnd.append isBlank_margin,
    List.forall_mem_cons.mpr ⟨by decide, isBlank_margin⟩, ?_⟩
  rw [chars_lines, List.flatMap_append, List.flatMap_cons, List.flatMap_cons]
  simp only [List.append_assoc, List.cons_append, List.nil_append, margin, line]

theorem follows_clauseBody :
    Follows a b (w ++ ((clauseBody (before ++ a :: b :: after)).chars level ++ rest)) := by
  let margin := List.replicate (4 * (level + 1)) ' '
  let line := fun d : Doc => '\n' :: (margin ++ d.chars (level + 1))
  refine ⟨level + 1, w ++ before.flatMap line ++ '\n' :: margin, '\n' :: margin,
    after.flatMap line ++ rest, .append_cons (by decide) isBlank_margin,
    List.forall_mem_cons.mpr ⟨by decide, isBlank_margin⟩, ?_⟩
  rw [chars_clauseBody, List.flatMap_append, List.flatMap_cons, List.flatMap_cons]
  simp only [List.append_assoc, List.cons_append, margin, line]

theorem follows_braced :
    Follows a b (w ++ ((braced (before ++ a :: b :: after)).chars level ++ rest)) := by
  have lineEnd : SetOff (w ++ ['\x7b'] ++ ['\n']) :=
    .append_cons (by decide) (List.forall_mem_nil _)
  have inside : Follows a b (w ++ ['\x7b'] ++ ['\n'] ++
      ((lines (before ++ a :: b :: after)).chars (level + 1) ++
        (List.replicate (4 * level) ' ' ++ '\x7d' :: rest))) := follows_lines lineEnd
  rw [braced, if_neg (by simp)]
  simpa using inside

/-- Statements of a scope stand one behind the other, whatever the scope stands in. A file stands
in nothing. -/
theorem follows_scope {emit : Node → Doc} {head : ScopeHead Node} {s t : Node}
    {front behind : List Node} (outer : w = [] ∨ head.kind ≠ .sourceFile) :
    Follows (emit s) (emit t)
      (w ++ ((scope emit head (front ++ s :: t :: behind)).chars level ++ rest)) := by
  have mapped : (front ++ s :: t :: behind).map emit =
      front.map emit ++ emit s :: emit t :: behind.map emit := List.map_append
  cases head with
  | file name =>
    obtain rfl : w = [] := outer.resolve_right (· rfl)
    rw [scope, mapped]
    exact follows_lines .nil
  | block | moduleBlock =>
    rw [scope, mapped]
    exact follows_braced
  | caseOf test =>
    rw [scope, mapped, Doc.chars_append, List.append_assoc, ← List.append_assoc]
    exact follows_clauseBody
  | defaultCase =>
    rw [scope, mapped, Doc.chars_append, List.append_assoc, ← List.append_assoc]
    exact follows_clauseBody

end Print

namespace Node

/-- Only the tree itself may be a file. -/
def FileAtRoot (t : Node) : Prop := ∀ n ∈ t.children.flatMap subtrees, n.kind ≠ .sourceFile

theorem follows_of_mem_subtrees {t : Node} (files : t.FileAtRoot) {head : ScopeHead Node}
    {before after : List Node} {a b : Node}
    (member : .scope head (before ++ a :: b :: after) ∈ t.subtrees) :
    Follows a.whole b.whole (t.whole.chars 0) := by
  have inside : ∀ w rest level, w = [] ∨ head.kind ≠ .sourceFile → Follows a.whole b.whole
      (w ++ ((Node.scope head (before ++ a :: b :: after)).whole.chars level ++ rest)) := by
    intro w rest level outer
    rw [whole_eq (.scope ..)]
    exact Print.follows_scope outer
  rcases mem_subtrees.mp member with same | ⟨c, child, below⟩
  · simpa only [← same, List.nil_append, List.append_nil] using
      inside [] [] 0 (.inl rfl)
  · have part := part_whole member (by cases head <;> simp [kind, ScopeHead.kind])
    obtain ⟨level, before, behind, split⟩ := part.chars 0
    rw [split]
    exact inside before behind level (.inr (files _ (List.mem_flatMap.mpr ⟨c, child, below⟩)))

end Node
end PureEnum
