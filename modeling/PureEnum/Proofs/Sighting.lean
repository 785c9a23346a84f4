import PureEnum.Proofs.Adjacency
import PureEnum.Proofs.Search
import PureEnum.Proofs.Sharing

/-! Sighting: the screen has no false negatives. The text of an enum holds what one of the patterns
searches for, so wherever in a tree an enum is gathered the text of the tree passes. -/
namespace PureEnum

namespace Node

@[simp] theorem whole_identifier (name : String) : (identifier name).whole = .text name :=
  whole_eq _

/-- What a variable statement of one name is printed as, its modifiers apart. -/
theorem chars_declareWith (modifiers : Modifiers) (keyword : Keyword) (name : String)
    (initializer : Option Node) (level : Nat) :
    (declareWith modifiers keyword name initializer).whole.chars level =
      (Print.modifiers modifiers).chars level ++ Screen.declaring keyword name.toList
        ((Doc.after " = " (initializer.map whole)).chars level ++ [';']) := by
  rw [whole_eq]
  simp [declareWith, Print.layer, Print.declarationList, Doc.commaSeparated, Screen.declaring]

theorem setOff_modifiers {before : List Char} (set : SetOff before) (modifiers : Modifiers)
    (level : Nat) : SetOff (before ++ (Print.modifiers modifiers).chars level) := by
  rw [Print.modifiers, Doc.chars_concat, List.flatMap_map]
  exact set.flatMap fun m _ => ⟨m.keyword.toList, ' ', by simp, by decide⟩

/-- Parentheses around an expression are printed in front of it and behind it. -/
theorem exists_chars_skipParens (e : Node) (level : Nat) : ∃ depth closing, e.whole.chars level =
    List.replicate depth '(' ++ (e.skipParens.whole.chars level ++ closing) := by
  induction e using skipParens.induct with
  | case1 inner ih =>
    obtain ⟨depth, closing, split⟩ := ih
    refine ⟨depth + 1, closing ++ [')'], ?_⟩
    rw [skipParens, whole_eq]
    simp [Print.layer, split, List.replicate_succ]
  | case2 e other =>
    refine ⟨0, [], ?_⟩
    rw [skipParens]
    · simp
    · exact other

theorem exists_chars_block (statements : List Node) (level : Nat) : ∃ behind,
    (block statements).whole.chars level = '\x7b' :: behind := by
  rw [whole_eq, block, Print.layer, Print.scope, Print.braced]
  split
  · exact ⟨_, Doc.chars_text level _⟩
  · exact ⟨_, by simp; rfl⟩

/-- A call that a compiler emits as a wrapper, up to the body. -/
theorem exists_chars_wrapperCallOf (name : String) (statements arguments : List Node)
    (level : Nat) : ∃ behind, (Enum.wrapperCallOf .empty none ⟨.identifier name, none, false⟩
      (block statements) arguments).whole.chars level =
        '(' :: ("function (".toList ++ (name.toList ++ (") \x7b".toList ++ behind))) := by
  obtain ⟨inside, body⟩ := exists_chars_block statements level
  rw [Enum.wrapperCallOf, whole_eq, Print.layer, whole_eq (.parenthesizedExpression _), Print.layer,
    whole_eq (.functionExpression ..), Print.layer]
  have none : Print.modifiers .empty = .empty := by
    have unmarked : Modifier.spoken.filter Modifiers.empty.has = [] := by decide
    rw [Print.modifiers, unmarked]
    rfl
  refine ⟨inside ++ ')' :: (Print.arguments whole arguments).chars level, ?_⟩
  simp [Print.function, Print.parameters, Doc.after, Doc.commaSeparated, body, none]

theorem chars_assign (target value : Node) (level : Nat) :
    (expressionStatement (assign target value)).whole.chars level =
      target.whole.chars level ++ (" = ".toList ++ (value.whole.chars level ++ [';'])) := by
  rw [whole_eq, Print.layer, assign, whole_eq (.binaryExpression ..)]
  simp [Print.layer]

/-- A member statement starts with the name and a sign of access. -/
theorem exists_chars_member {name : String} {s : Node}
    (sets : Enum.setsProperty name s ∨ Enum.setsElement name s) (level : Nat) :
    ∃ sign behind, (sign = '.' ∨ sign = '[') ∧
      s.whole.chars level = name.toList ++ sign :: behind := by
  rcases sets with sets | sets
  · obtain ⟨member, value, rfl⟩ := Enum.setsProperty_iff.mp sets
    refine ⟨'.', member.toList ++ (" = ".toList ++ (value.whole.chars level ++ [';'])), .inl rfl,
      (chars_assign ..).trans ?_⟩
    rw [whole_eq]
    simp [Print.layer]
  · obtain ⟨key, value, rfl⟩ := Enum.setsElement_iff.mp sets
    refine ⟨'[', key.whole.chars level ++
      ']' :: (" = ".toList ++ (value.whole.chars level ++ [';'])), .inr rfl,
      (chars_assign ..).trans ?_⟩
    rw [whole_eq]
    simp [Print.layer]

/-- A literal is printed between braces, at any level with the same characters but for blanks. -/
theorem exists_chars_literal {properties : List Node}
    (plain : ∀ c ∈ ((objectLiteralExpression properties).whole.chars 0).tail.dropLast,
      Screen.isPlain c) (level : Nat) :
    ∃ inner, (∀ c ∈ inner, Screen.isPlain c) ∧
      (objectLiteralExpression properties).whole.chars level = '\x7b' :: (inner ++ ['\x7d']) := by
  obtain ⟨inner, form⟩ : ∃ inner : Doc, ∀ level,
      (objectLiteralExpression properties).whole.chars level =
        '\x7b' :: (inner.chars level ++ ['\x7d']) := by
    rw [whole_eq, Print.layer]
    split
    · exact ⟨.empty, fun level => by simp⟩
    · exact ⟨" " ++ .commaSeparated (properties.map whole) ++ " ", fun level => by simp⟩
  refine ⟨inner.chars level, fun c member => ?_, form level⟩
  rw [form, List.tail_cons, List.dropLast_concat] at plain
  rcases Doc.mem_chars member 0 with inside | rfl
  · exact plain c inside
  · decide

section Seen

variable {owner : String} (named : Screen.Named owner.toList) {modifiers : Modifiers}
  {keyword : Keyword} {s : List Char}
include named

/-- A declaration is seen with the wrapper call behind it. -/
theorem mayHoldEnum_of_calls {e : Node} {statements arguments : List Node}
    (calls : e.skipParens = Enum.wrapperCallOf .empty none ⟨.identifier owner, none, false⟩
      (block statements) arguments)
    (follows : Follows (declareWith modifiers keyword owner none).whole
      (expressionStatement e).whole s) : Screen.mayHoldEnum s := by
  obtain ⟨level, before, gap, behind, set, blank, rfl⟩ := follows
  obtain ⟨depth, closing, outer⟩ := exists_chars_skipParens e level
  obtain ⟨body, called⟩ := exists_chars_wrapperCallOf owner statements arguments level
  have boundary := (setOff_modifiers set modifiers level).atBoundary
  have text : before ++ ((declareWith modifiers keyword owner none).whole.chars level ++
      (gap ++ ((expressionStatement e).whole.chars level ++ behind))) =
        before ++ (Print.modifiers modifiers).chars level ++
          Screen.declaring keyword owner.toList (Screen.thenCalling gap depth owner.toList
            (body ++ (closing ++ ';' :: behind))) := by
    rw [chars_declareWith, whole_eq (.expressionStatement e), Print.layer, Doc.chars_append, outer,
      calls, called]
    simp [Screen.declaring, Screen.thenCalling, Doc.after, List.replicate_succ']
  rw [text]
  exact named.mayHoldEnum_calling boundary blank

/-- A declaration of a literal is seen with the member behind it. -/
theorem mayHoldEnum_of_fills {properties : List Node} {first : Node}
    (plain : ∀ c ∈ ((objectLiteralExpression properties).whole.chars 0).tail.dropLast,
      Screen.isPlain c)
    (sets : Enum.setsProperty owner first ∨ Enum.setsElement owner first)
    (follows : Follows (declareWith modifiers keyword owner
      (some (.objectLiteralExpression properties))).whole first.whole s) :
    Screen.mayHoldEnum s := by
  obtain ⟨level, before, gap, behind, set, blank, rfl⟩ := follows
  obtain ⟨inner, inside, literal⟩ := exists_chars_literal plain level
  obtain ⟨sign, more, access, member⟩ := exists_chars_member sets level
  have boundary := (setOff_modifiers set modifiers level).atBoundary
  have text : before ++ ((declareWith modifiers keyword owner
      (some (.objectLiteralExpression properties))).whole.chars level ++
        (gap ++ (first.whole.chars level ++ behind))) =
          before ++ (Print.modifiers modifiers).chars level ++
            Screen.declaring keyword owner.toList
              (Screen.thenFilling inner gap owner.toList sign (more ++ behind)) := by
    rw [chars_declareWith, member]
    simp [Screen.declaring, Screen.thenFilling, Doc.after, literal]
  rw [text]
  exact named.mayHoldEnum_filling boundary inside blank access

end Seen

end Node

namespace Candidate

/-- What the screen reads in the text of an enum: its name is made of name characters; a wrapper is
a function without name and modifiers over a block, whose parameter has no default; the literal of
a fixed count is printed without braces and semicolons between its outer braces. -/
structure Legible (c : Candidate) : Prop where
  named : Screen.Named c.name.toList
  wrapper : ∀ modifiers label initializer head members arguments,
    c.run = .wrapper (Enum.wrapperCallOf modifiers label ⟨.identifier c.name, initializer, false⟩
      (.scope head members) arguments) →
    modifiers = .empty ∧ label = none ∧ initializer = none ∧ head = .block
  literal : ∀ members, c.run = .fixed members → ∀ literal ∈ c.declaration.initializer,
    ∀ character ∈ literal.text.toList.tail.dropLast, Screen.isPlain character

/-- Where the text of an anchor is followed by that of the first statement of its run, the screen
sees the enum. -/
theorem Fits.mayHoldEnum {c : Candidate} {first : Node} {run rest : List Node}
    (fits : c.Fits (first :: run) rest) (legible : c.Legible)
    (shallow : c.anchor.height ≤ maxPrintDepth) {s : List Char}
    (follows : Follows c.anchor.whole first.whole s) : Screen.mayHoldEnum s := by
  cases fits with
  | wrapper found =>
    obtain ⟨e, functionModifiers, label, initializer, head, members, arguments, rfl, inside,
      form, -⟩ := Enum.wrapperCall?_eq_some.mp found
    obtain ⟨rfl, rfl, rfl, rfl⟩ := legible.wrapper _ _ _ _ _ _ (congrArg _ form)
    exact Node.mayHoldEnum_of_calls legible.named (inside.trans form) follows
  | flat nonempty longest =>
    have member := List.mem_cons_self (a := first) (l := run)
    rw [← longest] at member
    refine Node.mayHoldEnum_of_fills legible.named ?_ (Enum.sets_of_mem_flatMembers member) follows
    rw [Node.whole_eq]
    simp [Print.layer]
  | @fixed properties _ _ _ _ _ nonempty length longest =>
    have member := List.mem_cons_self (a := first) (l := run)
    rw [← longest] at member
    have sets := Enum.setsElement_of_setsNameLookup (List.mem_takeWhile_imp member)
    refine Node.mayHoldEnum_of_fills legible.named ?_ (.inr sets) follows
    have lower : (Node.objectLiteralExpression properties).height ≤ maxPrintDepth := by
      refine Nat.le_trans (Nat.le_of_lt (Node.height_lt_of_mem_children ?_)) shallow
      simp [anchor, Node.children, Node.layer, Layer.children, Row.children, Slot.children,
        Declaration.children]
    rw [← Node.toList_text lower]
    exact legible.literal _ rfl _ rfl

end Candidate

namespace Gather

/-- One legible enum that gathering finds is enough for the text of the tree to pass, whatever
else stands in the tree. The tree is printed in full, and nothing in it is a file. -/
theorem accepts_of_mem_found {t : Node} (shallow : t.height ≤ maxPrintDepth)
    (files : t.FileAtRoot) {c : Candidate} (member : c ∈ found maxTreeDepth t)
    (legible : c.Legible) : Screen.accepts t.text := by
  obtain ⟨head, before, first, run, rest, fits, scope⟩ := exists_fits_of_mem_found member
  have anchor : c.anchor ∈ t.subtrees := by
    refine Node.mem_subtrees_trans scope (Node.child_mem_subtrees ?_)
    rw [Node.children_scope]
    simp
  have lower := Nat.le_trans (Node.height_le_of_mem_subtrees anchor) shallow
  rw [Screen.accepts, Node.toList_text shallow]
  exact fits.mayHoldEnum legible lower (Node.follows_of_mem_subtrees files scope)

/-- The screen has no false negatives: where gathering changes a tree whose enums are legible, the
text of the tree passes. -/
theorem screened {t : Node} (shallow : t.height ≤ maxPrintDepth) (files : t.FileAtRoot)
    (legible : ∀ c ∈ found maxTreeDepth t, c.Legible) :
    ∃ e p, t.gather.run .start = .ok (e, p) ∧ (e ≠ .kept → Screen.accepts t.text) := by
  refine ⟨_, _, settles_node maxTreeDepth t .start, fun changed => ?_⟩
  have some : 0 < (found maxTreeDepth t).length := by
    rw [ne_eq, edit_eq_kept_iff, Bool.not_eq_false, List.any_eq_true] at changed
    rw [length_found]
    exact List.countP_pos_iff.mpr changed
  obtain ⟨c, member⟩ := List.exists_mem_of_length_pos some
  exact accepts_of_mem_found shallow files member (legible c member)

def emittedWrapper : Node := Enum.wrapperCallOf .empty none (.plain "E") (.block
  [.expressionStatement (.assign (.elementAccessExpression (.identifier "E")
    (.assign (.elementAccessExpression (.identifier "E") (.stringLiteral "A"))
      (.numericLiteral "0"))) (.stringLiteral "A"))]) [.identifier "E"]

def filledLiteral : Node := .object [("B", .numericLiteral "1")]

def fillingMember : Node := .expressionStatement (.assign (.elementAccessExpression
  (.identifier "F") (.propertyAccessExpression (.identifier "F") "B")) (.stringLiteral "B"))

def crowded : Node :=
  .file "crowded.js" [.expressionStatement (.raw "let var = \x7b"), .declare "E" none,
    .expressionStatement emittedWrapper,
    .block [.declare "F" (some filledLiteral), fillingMember,
      .returnStatement (some (.identifier "F"))]]

theorem found_crowded : found maxTreeDepth crowded =
    [⟨"E", .empty, .var, ⟨.identifier "E", none⟩, .wrapper emittedWrapper⟩,
      ⟨"F", .empty, .var, ⟨.identifier "F", some filledLiteral⟩,
        .fixed [fillingMember]⟩] := rfl

theorem legible_crowded : ∀ c ∈ found maxTreeDepth crowded, c.Legible := by
  have text : filledLiteral.text.toList = "\x7b B: 1 \x7d".toList := by
    have fits : filledLiteral.height ≤ maxPrintDepth := by
      simp only [filledLiteral, Node.object, List.map_cons, List.map_nil, Node.height_eq,
        Node.children, Node.layer, Layer.children, Row.children, Slot.children, Cell.children,
        List.append_nil, List.cons_append, List.nil_append, List.foldr_cons, List.foldr_nil]
      decide
    rw [Node.toList_text fits, filledLiteral]
    simp [Node.object, Node.whole_eq, Print.layer, Doc.commaSeparated, Print.propertyName]
  rw [found_crowded, List.forall_mem_cons, List.forall_mem_singleton]
  refine ⟨⟨⟨by decide, List.all_eq_true.mp (by decide)⟩, ?_, fun _ other => by contradiction⟩,
    ⟨⟨by decide, List.all_eq_true.mp (by decide)⟩, fun _ _ _ _ _ _ other => by contradiction,
      ?_⟩⟩
  · intro modifiers label initializer head members arguments same
    simp only [emittedWrapper, Enum.wrapperCallOf, Parameter.plain, Node.block,
      Run.wrapper.injEq, Node.callExpression.injEq, Node.parenthesizedExpression.injEq,
      Node.functionExpression.injEq, Node.scope.injEq, List.cons.injEq, Parameter.mk.injEq] at same
    obtain ⟨⟨rfl, rfl, ⟨⟨-, rfl, -⟩, -⟩, rfl, -⟩, -⟩ := same
    exact ⟨rfl, rfl, rfl, rfl⟩
  · rintro members - literal ⟨⟩
    rw [text]
    exact List.all_eq_true.mp (by decide)

theorem screened_crowded : crowded.height ≤ maxPrintDepth ∧ crowded.FileAtRoot ∧
    ∃ e p, crowded.gather.run .start = .ok (e, p) ∧ e ≠ .kept ∧ Screen.accepts crowded.text := by
  obtain ⟨shallow, files⟩ : crowded.height ≤ maxPrintDepth ∧ crowded.FileAtRoot := by
    simp [Node.FileAtRoot, maxPrintDepth, crowded, emittedWrapper, filledLiteral,
      fillingMember, Enum.wrapperCallOf, Node.file, Node.declare, Node.declareWith,
      Node.block, Node.assign, Node.object, Parameter.plain, Node.height_eq, Node.subtrees_eq,
      Node.children, Node.layer, Layer.children, Row.children, Slot.children, Cell.children,
      Declaration.children, Parameter.children, Node.kind, ScopeHead.kind]
  obtain ⟨e, p, ran, seen⟩ := screened shallow files legible_crowded
  have changed : e ≠ .kept := by
    obtain ⟨rfl, -⟩ := Prod.mk.inj (Except.ok.inj ((settles_node _ _ _).symm.trans ran))
    rw [ne_eq, edit_eq_kept_iff]
    decide
  exact ⟨shallow, files, e, p, ran, changed, seen changed⟩

end Gather
end PureEnum
