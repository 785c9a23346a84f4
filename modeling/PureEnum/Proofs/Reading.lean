import PureEnum.Proofs.Nesting

/-! Reading printed text back. What stands at the front of a text is told by the text: an expression
where something follows that ends it, and a plain statement where no else follows that it could
take. So statements have one text exactly when they settle to one statement. -/
namespace PureEnum

/-- Letters are told apart from what follows them. -/
theorem letters_append_inj {xs ys r q : List Char} {c d : Char} (letters : xs.all Char.isAlpha)
    (others : ys.all Char.isAlpha) (ends : ¬ c.isAlpha) (stops : ¬ d.isAlpha)
    (same : xs ++ c :: r = ys ++ d :: q) : xs = ys ∧ c :: r = d :: q := by
  have front := congrArg (List.takeWhile Char.isAlpha) same
  rw [List.takeWhile_append_of_pos (List.all_eq_true.mp letters),
    List.takeWhile_append_of_pos (List.all_eq_true.mp others), List.takeWhile_cons_of_neg ends,
    List.takeWhile_cons_of_neg stops, List.append_nil, List.append_nil] at front
  subst front
  exact ⟨rfl, List.append_cancel_left same⟩

theorem Sign.char_inj {s t : Sign} (same : s.char = t.char) : s = t := by
  cases s <;> cases t <;> first | rfl | exact absurd same (by decide)

/-- Only a single sign is the beginning of another operator. -/
theorem Operator.chars_append_inj {o p : Operator} {r q : List Char}
    (same : o.chars ++ r = p.chars ++ q) : (o = p ∧ r = q) ∨
      (∃ s, o = .single s ∧ p = .double s ∧ r = s.char :: q) ∨
      ∃ s, o = .double s ∧ p = .single s ∧ q = s.char :: r := by
  rcases o with ⟨_ | _⟩ | ⟨_ | _⟩ | _ | _ | _ | _ | _ <;>
    rcases p with ⟨_ | _⟩ | ⟨_ | _⟩ | _ | _ | _ | _ | _ <;> simp_all [chars, Sign.char]

/-- What may follow an expression. -/
def Closes (c : Char) : Prop := c = ';' ∨ c = ')'

instance : DecidablePred Closes := fun c => inferInstanceAs (Decidable (c = ';' ∨ c = ')'))

theorem Closes.not_isAlpha {c : Char} (closes : Closes c) : ¬ c.isAlpha := by
  rcases closes with rfl | rfl <;> decide

/-- Text at the front of which stands no name: letters at most, and then something that is neither a
letter nor the end of an expression. -/
def Marked (text : List Char) : Prop :=
  ∃ xs c r, text = xs ++ c :: r ∧ xs.all Char.isAlpha ∧ ¬ c.isAlpha ∧ ¬ Closes c

theorem Word.not_marked (word : Word) {c : Char} {r : List Char} (closes : Closes c) :
    ¬ Marked (word.text.toList ++ c :: r) := by
  rintro ⟨xs, d, q, same, letters, other, goesOn⟩
  obtain ⟨-, rest⟩ := letters_append_inj word.letters letters closes.not_isAlpha other same
  obtain rfl := (List.cons.inj rest).1
  exact goesOn closes

theorem Word.ext_toList {word other : Word} (same : word.text.toList = other.text.toList) :
    word = other := by
  cases word
  cases other
  obtain rfl := String.toList_injective same
  rfl

theorem Sign.marked (s : Sign) (r : List Char) : Marked (s.char :: r) :=
  ⟨[], s.char, r, rfl, rfl, by cases s <;> decide⟩

theorem Operator.marked (o : Operator) (r : List Char) : Marked (o.chars ++ r) := by
  cases o with
  | single s | double s => exact s.marked _
  | not => exact ⟨[], '!', r, rfl, rfl, by decide⟩
  | complement => exact ⟨[], '~', r, rfl, rfl, by decide⟩
  | typeOf => exact ⟨['t', 'y', 'p', 'e', 'o', 'f'], ' ', r, rfl, rfl, by decide⟩
  | void => exact ⟨['v', 'o', 'i', 'd'], ' ', r, rfl, rfl, by decide⟩
  | delete => exact ⟨['d', 'e', 'l', 'e', 't', 'e'], ' ', r, rfl, rfl, by decide⟩

namespace Term

theorem marked_applied (o : Operator) (e : Term) (r : List Char) :
    Marked ((applied o e).chars ++ r) := by
  rw [chars, List.append_assoc]
  exact o.marked _

theorem marked_enclosed (e : Term) (r : List Char) : Marked ((enclosed e).chars ++ r) :=
  ⟨[], '(', _, rfl, rfl, by decide⟩

theorem applied_ne_enclosed {o : Operator} {e f : Term} {r q : List Char} :
    (applied o e).chars ++ r ≠ (enclosed f).chars ++ q := by
  intro same
  rcases o with ⟨_ | _⟩ | ⟨_ | _⟩ | _ | _ | _ | _ | _ <;>
    exact absurd (List.cons.inj same).1 (by decide)

theorem beginsWith_of_chars {e : Term} {s : Sign} {c : Char} {r q : List Char} (closes : Closes c)
    (same : e.chars ++ c :: r = s.char :: q) : e.BeginsWith s := by
  cases e with
  | name word => exact absurd (same ▸ s.marked q) (word.not_marked closes)
  | applied o e =>
    cases o with
    | single t | double t => exact Sign.char_inj (List.cons.inj same).1
    | _ => cases s <;> exact absurd (List.cons.inj same).1 (by decide)
  | enclosed e => cases s <;> exact absurd (List.cons.inj same).1 (by decide)

/-- A plain expression is read in one way. -/
theorem Plain.unique {e f : Term} (plain : e.Plain) (other : f.Plain) {c d : Char} {r q : List Char}
    (closes : Closes c) (ends : Closes d) (same : e.chars ++ c :: r = f.chars ++ d :: q) :
    e = f ∧ c :: r = d :: q := by
  induction plain generalizing f c d r q with
  | name word =>
    cases other with
    | name other =>
      obtain ⟨text, rest⟩ := letters_append_inj word.letters other.letters closes.not_isAlpha
        ends.not_isAlpha same
      exact ⟨congrArg Term.name (Word.ext_toList text), rest⟩
    | applied => exact absurd (same ▸ marked_applied _ _ _) (word.not_marked closes)
    | enclosed => exact absurd (same ▸ marked_enclosed _ _) (word.not_marked closes)
  | @applied o e apart _ ih =>
    cases other with
    | name word => exact absurd (same ▸ marked_applied _ _ _) (word.not_marked ends)
    | @applied p f otherApart operand =>
      rw [chars, chars, List.append_assoc, List.append_assoc] at same
      rcases Operator.chars_append_inj same with ⟨rfl, rest⟩ | ⟨s, single, -, rest⟩ |
        ⟨s, -, single, rest⟩
      · obtain ⟨rfl, behind⟩ := ih operand closes ends rest
        exact ⟨rfl, behind⟩
      · exact absurd (beginsWith_of_chars closes rest) (apart s single)
      · exact absurd (beginsWith_of_chars ends rest) (otherApart s single)
    | enclosed => exact absurd same applied_ne_enclosed
  | @enclosed e _ ih =>
    cases other with
    | name word => exact absurd (same ▸ marked_enclosed _ _) (word.not_marked ends)
    | applied => exact absurd same.symm applied_ne_enclosed
    | @enclosed f inside =>
      simp only [chars, List.cons_append, List.append_assoc] at same
      obtain ⟨rfl, rest⟩ := ih inside (.inr rfl) (.inr rfl) (List.cons.inj same).2
      exact ⟨rfl, (List.cons.inj rest).2⟩

/-- No expression begins as a block or a conditional does. -/
theorem chars_ne {e : Term} {c d : Char} {r q : List Char} (closes : Closes c)
    (marked : Marked (d :: q)) (other : d ∉ "+-!~tvd(".toList) : e.chars ++ c :: r ≠ d :: q := by
  intro same
  cases e with
  | name word => exact word.not_marked closes (same ▸ marked)
  | applied o e =>
    rcases o with ⟨_ | _⟩ | ⟨_ | _⟩ | _ | _ | _ | _ | _ <;>
      exact other ((List.cons.inj same).1 ▸ by decide)
  | enclosed e => exact other ((List.cons.inj same).1 ▸ by decide)

end Term

namespace Statement

/-- Whether no else that the statement could take follows it. -/
def Ends (s : Statement) (r : List Char) : Prop := s.lacksElse = true → ¬ " else ".toList <+: r

theorem ends_of_ended {s : Statement} (ended : s.lacksElse = false) (r : List Char) : s.Ends r :=
  fun lacks => absurd lacks (Bool.eq_false_iff.mp ended)

/-- A plain statement at the front of the same text is this one, where no else follows that either
of them could take. -/
def Told (s : Statement) : Prop :=
  ∀ {t : Statement} {level : Nat} {r q : List Char}, t.Plain → s.Ends r → t.Ends q →
    s.chars level ++ r = t.chars level ++ q → s = t ∧ r = q

theorem margin_succ (level : Nat) : margin (level + 1) = margin level ++ "    ".toList :=
  List.replicate_add ..

theorem lines_cons (level : Nat) (s : Statement) (statements : List Statement) (r : List Char) :
    lines level (s :: statements) ++ r =
      margin level ++ (s.chars level ++ '\n' :: (lines level statements ++ r)) := by
  simp [lines]

/-- The end of a block stands further out than its lines. -/
theorem end_ne_lines {level : Nat} {s : Statement} {statements : List Statement}
    {r q : List Char} :
    margin level ++ '\x7d' :: r ≠ lines (level + 1) (s :: statements) ++ q := by
  intro same
  rw [lines_cons, margin_succ, List.append_assoc] at same
  exact absurd (List.cons.inj (List.append_cancel_left same)).1 (by decide)

theorem lines_inj {level : Nat} {statements others : List Statement} {r q : List Char}
    (told : ∀ s ∈ statements, s.Told) (plain : ∀ t ∈ others, t.Plain)
    (same : lines (level + 1) statements ++ (margin level ++ '\x7d' :: r) =
      lines (level + 1) others ++ (margin level ++ '\x7d' :: q)) : statements = others ∧ r = q := by
  induction statements generalizing others with
  | nil =>
    cases others with
    | nil => exact ⟨rfl, (List.cons.inj (List.append_cancel_left same)).2⟩
    | cons => exact absurd same end_ne_lines
  | cons s statements ih =>
    cases others with
    | nil => exact absurd same.symm end_ne_lines
    | cons t others =>
      obtain ⟨first, rest⟩ := List.forall_mem_cons.mp told
      obtain ⟨firstPlain, restPlain⟩ := List.forall_mem_cons.mp plain
      rw [lines_cons, lines_cons] at same
      obtain ⟨rfl, behind⟩ := first firstPlain (fun _ => by simp) (fun _ => by simp)
        (List.append_cancel_left same)
      obtain ⟨rfl, after⟩ := ih rest restPlain (List.cons.inj behind).2
      exact ⟨rfl, after⟩

section Fronts

variable {level : Nat} {c d : Term} {yes no : Statement} {statements : List Statement}
  {r q : List Char}

theorem chars_block (level : Nat) (statements : List Statement) :
    ∃ text, (block statements).chars level = '\x7b' :: text := by
  cases statements with
  | nil => exact ⟨_, chars_block_nil level⟩
  | cons s statements => exact ⟨_, chars_block_cons level s statements⟩

theorem evaluated_ne_block {e : Term} :
    (evaluated e).chars level ++ r ≠ (block statements).chars level ++ q := by
  obtain ⟨text, begins⟩ := chars_block level statements
  rw [begins, chars_evaluated, List.append_assoc]
  exact Term.chars_ne (.inl rfl) ⟨[], '\x7b', _, rfl, rfl, by decide⟩ (by decide)

theorem evaluated_ne_conditional {e : Term} :
    (evaluated e).chars level ++ r ≠ (conditional c yes).chars level ++ q := by
  rw [chars_conditional, chars_evaluated, List.append_assoc]
  exact Term.chars_ne (.inl rfl) ⟨"if".toList, ' ', _, rfl, rfl, by decide⟩ (by decide)

theorem block_ne_conditional :
    (block statements).chars level ++ r ≠ (conditional c yes).chars level ++ q := by
  obtain ⟨text, begins⟩ := chars_block level statements
  rw [begins, chars_conditional]
  exact fun same => absurd (List.cons.inj same).1 (by decide)

/-- The condition is told by the text, with an else behind the branch or not. -/
theorem conditional_inj (plain : c.Plain) (other : d.Plain)
    (same : (conditional c yes).chars level ++ r = (conditional d no).chars level ++ q) :
    c = d ∧ yes.chars level ++ r = no.chars level ++ q := by
  simp only [chars_conditional, List.append_assoc, List.append_cancel_left_eq] at same
  obtain ⟨rfl, rest⟩ := plain.unique other (.inr rfl) (.inr rfl) same
  exact ⟨rfl, (List.cons.inj (List.cons.inj rest).2).2⟩

end Fronts

/-- A block is told by its text when the statements in it are. -/
theorem block_inj {level : Nat} {statements others : List Statement} {r q : List Char}
    (told : ∀ s ∈ statements, s.Told) (plain : ∀ t ∈ others, t.Plain)
    (same : (block statements).chars level ++ r = (block others).chars level ++ q) :
    statements = others ∧ r = q := by
  cases statements with
  | nil =>
    cases others with
    | nil => exact ⟨rfl, List.append_cancel_left same⟩
    | cons => simp [chars_block_nil, chars_block_cons] at same
  | cons s statements =>
    cases others with
    | nil => simp [chars_block_nil, chars_block_cons] at same
    | cons t others =>
      simp only [chars_block_cons, List.append_assoc] at same
      exact lines_inj told plain (List.append_cancel_left same)

/-- A plain statement is told by its text. -/
theorem Plain.told {s : Statement} (plain : s.Plain) : s.Told := by
  induction plain with
  | evaluated expression =>
    intro t level r q other ends stops same
    cases other with
    | evaluated otherExpression =>
      rw [chars_evaluated, chars_evaluated, List.append_assoc, List.append_assoc] at same
      obtain ⟨rfl, rest⟩ := expression.unique otherExpression (.inl rfl) (.inl rfl) same
      exact ⟨rfl, (List.cons.inj rest).2⟩
    | block => exact absurd same evaluated_ne_block
    | conditional => exact absurd same evaluated_ne_conditional
    | alternative =>
      rw [chars_alternative, List.append_assoc] at same
      exact absurd same evaluated_ne_conditional
  | block _ ih =>
    intro t level r q other ends stops same
    cases other with
    | evaluated => exact absurd same.symm evaluated_ne_block
    | block plain =>
      obtain ⟨rfl, rest⟩ := block_inj ih plain same
      exact ⟨rfl, rest⟩
    | conditional => exact absurd same block_ne_conditional
    | alternative =>
      rw [chars_alternative, List.append_assoc] at same
      exact absurd same block_ne_conditional
  | conditional condition _ ih =>
    intro t level r q other ends stops same
    cases other with
    | evaluated => exact absurd same.symm evaluated_ne_conditional
    | block => exact absurd same.symm block_ne_conditional
    | conditional otherCondition otherBranch =>
      obtain ⟨rfl, rest⟩ := conditional_inj condition otherCondition same
      obtain ⟨rfl, behind⟩ := ih otherBranch (fun _ => ends rfl) (fun _ => stops rfl) rest
      exact ⟨rfl, behind⟩
    | alternative otherCondition otherBranch ended =>
      -- the same branch on both sides, so that the else of the other one follows this statement
      simp only [chars_alternative, List.append_assoc] at same
      obtain ⟨-, rest⟩ := conditional_inj condition otherCondition same
      obtain ⟨-, behind⟩ := ih otherBranch (fun _ => ends rfl) (ends_of_ended ended _) rest
      exact absurd ⟨_, behind.symm⟩ (ends rfl)
  | alternative condition _ ended _ ihYes ihNo =>
    intro t level r q other ends stops same
    simp only [chars_alternative, List.append_assoc] at same
    cases other with
    | evaluated => exact absurd same.symm evaluated_ne_conditional
    | block => exact absurd same.symm block_ne_conditional
    | conditional otherCondition otherBranch =>
      obtain ⟨-, rest⟩ := conditional_inj condition otherCondition same
      obtain ⟨-, behind⟩ := ihYes otherBranch (ends_of_ended ended _) (fun _ => stops rfl) rest
      exact absurd ⟨_, behind⟩ (stops rfl)
    | alternative otherCondition otherBranch otherEnded otherNo =>
      simp only [chars_alternative, List.append_assoc] at same
      obtain ⟨rfl, rest⟩ := conditional_inj condition otherCondition same
      obtain ⟨rfl, behind⟩ := ihYes otherBranch (ends_of_ended ended _)
        (ends_of_ended otherEnded _) rest
      obtain ⟨rfl, after⟩ := ihNo otherNo ends stops (List.append_cancel_left behind)
      exact ⟨rfl, after⟩

theorem Plain.eq_of_chars {s t : Statement} {level : Nat} (plain : s.Plain) (other : t.Plain)
    (same : s.chars level = t.chars level) : s = t := by
  have last : ∀ u : Statement, u.Ends [] := fun _ _ => by simp
  have whole : s.chars level ++ [] = t.chars level ++ [] := by rw [same]
  exact (plain.told other (last s) (last t) whole).1

/-- Nothing is left to settle in a plain statement, and only there. -/
theorem settled_eq_self_iff {s : Statement} : s.settled = s ↔ s.Plain := by
  constructor
  · intro same
    exact same ▸ s.plain_settled
  · intro plain
    exact s.plain_settled.eq_of_chars plain (chars_settled 0 s)

theorem chars_eq_iff {s t : Statement} {level : Nat} :
    s.chars level = t.chars level ↔ s.settled.node = t.settled.node := by
  constructor
  · intro same
    have settled : s.settled.chars level = t.settled.chars level := by
      rw [chars_settled, chars_settled, same]
    rw [s.plain_settled.eq_of_chars t.plain_settled settled]
  · intro same
    rw [← chars_settled, ← chars_settled level t, chars, same, ← chars]

/-- Statements that are not nested too deep have one text exactly when they settle to one statement.
Nothing is left to settle in the plain ones, so these are told by their texts. -/
theorem same_text_iff (a b : Statement) (fits : a.node.height ≤ maxPrintDepth)
    (also : b.node.height ≤ maxPrintDepth) :
    (a.node.text = b.node.text ↔ a.settled.node = b.settled.node) ∧
    (a.settled = a ↔ a.Plain) ∧
    (a.Plain → b.Plain → (a.node.text = b.node.text ↔ a.node = b.node)) := by
  have chars : a.node.text = b.node.text ↔ a.chars 0 = b.chars 0 := by
    rw [← String.toList_inj, Node.toList_text fits, Node.toList_text also]
    rfl
  refine ⟨chars.trans chars_eq_iff, settled_eq_self_iff, fun plain other => ?_⟩
  rw [chars, chars_eq_iff, settled_eq_self_iff.mpr plain, settled_eq_self_iff.mpr other]

def minusMinus : Statement :=
  .evaluated (.applied (.single .minus) (.applied (.single .minus) (.name ⟨"x", by decide⟩)))

def decrement : Statement := .evaluated (.applied (.double .minus) (.name ⟨"x", by decide⟩))

/-- The else belongs to the condition `a`. -/
def outerElse : Statement :=
  .alternative (.name ⟨"a", by decide⟩)
    (.conditional (.name ⟨"b", by decide⟩) (.evaluated (.name ⟨"x", by decide⟩)))
    (.evaluated (.name ⟨"y", by decide⟩))

/-- The else belongs to the condition `b`. -/
def innerElse : Statement :=
  .conditional (.name ⟨"a", by decide⟩)
    (.alternative (.name ⟨"b", by decide⟩) (.evaluated (.name ⟨"x", by decide⟩))
      (.evaluated (.name ⟨"y", by decide⟩)))

example : minusMinus.settled = decrement := rfl
example : outerElse.settled = innerElse := rfl

theorem samples_fit : ∀ s ∈ [minusMinus, decrement, outerElse, innerElse],
    s.node.height ≤ maxPrintDepth := by
  simp [minusMinus, decrement, outerElse, innerElse, node, Term.node, Node.height_eq, Node.children,
    Node.layer, Layer.children, Row.children, Slot.children, Cell.children, maxPrintDepth]

/-- Plain statements of different structure are printed differently. -/
theorem same_text_iff_samples : decrement.node.height ≤ maxPrintDepth ∧
    innerElse.node.height ≤ maxPrintDepth ∧ decrement.Plain ∧ innerElse.Plain ∧
    decrement.node.text ≠ innerElse.node.text := by
  have fits : decrement.node.height ≤ maxPrintDepth := samples_fit _ (by simp)
  have also : innerElse.node.height ≤ maxPrintDepth := samples_fit _ (by simp)
  have plain : decrement.Plain := settled_eq_self_iff.mp rfl
  have other : innerElse.Plain := settled_eq_self_iff.mp rfl
  have told := (same_text_iff decrement innerElse fits also).2.2 plain other
  exact ⟨fits, also, plain, other, mt told.mp nofun⟩

/-- Different statements that are not nested too deep and have this text. -/
structure Collide (a b : Statement) (text : String) : Prop where
  fits : a.node.height ≤ maxPrintDepth
  also : b.node.height ≤ maxPrintDepth
  first : a.node.text = text
  second : b.node.text = text
  differ : a.node ≠ b.node

/-- Two signs run together, and an else may belong to either of two conditionals. -/
theorem same_text_different : Collide minusMinus decrement "--x;" ∧
    Collide outerElse innerElse "if (a) if (b) x; else y;" := by
  refine ⟨⟨?_, ?_, rfl, rfl, ?_⟩, ?_, ?_, rfl, rfl, ?_⟩
  · exact samples_fit _ (by simp)
  · exact samples_fit _ (by simp)
  · simp [minusMinus, decrement, node, Term.node, Operator.text]
  · exact samples_fit _ (by simp)
  · exact samples_fit _ (by simp)
  · simp [outerElse, innerElse, node, Term.node]

end Statement

end PureEnum
