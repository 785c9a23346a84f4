import PureEnum.Proofs.Printing

/-! Statements of names, prefix operators, parentheses, blocks and conditionals, and what a reader
makes of their text: an operator is as long as it can be, and an else belongs to the nearest
conditional that has none. Settled in this way, a statement keeps its text, and then no sign stands
in front of one that it would join with, and no else behind a branch that could take it. -/
namespace PureEnum

/-- A text of letters. It may be a word of the language, which makes no difference here. -/
structure Word where
  text : String
  letters : text.toList.all Char.isAlpha

inductive Sign where
  | plus
  | minus
deriving DecidableEq

def Sign.char : Sign → Char
  | plus => '+'
  | minus => '-'

/-- A sign that is doubled is another operator. -/
inductive Operator where
  | single (s : Sign)
  | double (s : Sign)
  | not
  | complement
  | typeOf
  | void
  | delete

namespace Operator

def text : Operator → String
  | single .plus => "+"
  | single .minus => "-"
  | double .plus => "++"
  | double .minus => "--"
  | not => "!"
  | complement => "~"
  | typeOf => "typeof"
  | void => "void"
  | delete => "delete"

def chars : Operator → List Char
  | single s => [s.char]
  | double s => [s.char, s.char]
  | not => ['!']
  | complement => ['~']
  | typeOf => ['t', 'y', 'p', 'e', 'o', 'f', ' ']
  | void => ['v', 'o', 'i', 'd', ' ']
  | delete => ['d', 'e', 'l', 'e', 't', 'e', ' ']

theorem chars_prefixed (o : Operator) (level : Nat) :
    (Print.prefixed o.text).chars level = o.chars := by
  have written : (Print.prefixed o.text).chars level = (Print.prefixed o.text).chars 0 := by
    rw [Print.prefixed]
    split <;> simp
  rw [written]
  rcases o with ⟨_ | _⟩ | ⟨_ | _⟩ | _ | _ | _ | _ | _ <;> rfl

end Operator

inductive Term where
  | name (word : Word)
  | applied (operator : Operator) (operand : Term)
  | enclosed (inside : Term)

namespace Term

def node : Term → Node
  | name word => .identifier word.text
  | applied o e => .prefixUnaryExpression o.text e.node
  | enclosed e => .parenthesizedExpression e.node

def chars : Term → List Char
  | name word => word.text.toList
  | applied o e => o.chars ++ e.chars
  | enclosed e => '(' :: (e.chars ++ [')'])

/-- No expression has lines. -/
theorem chars_whole (e : Term) (level : Nat) : e.node.whole.chars level = e.chars := by
  induction e with
  | name word =>
    rw [node, Node.whole_eq]
    simp [Print.layer, chars]
  | applied o e ih =>
    rw [node, Node.whole_eq]
    simp [Print.layer, chars, Operator.chars_prefixed, ih]
  | enclosed e ih =>
    rw [node, Node.whole_eq]
    simp [Print.layer, chars, ih]

def BeginsWith (s : Sign) : Term → Prop
  | applied (.single t) _ | applied (.double t) _ => t = s
  | _ => False

/-- No sign stands in front of one that it would join with. -/
inductive Plain : Term → Prop where
  | name (word : Word) : Plain (name word)
  | applied {o : Operator} {e : Term} (apart : ∀ s, o = .single s → ¬ e.BeginsWith s)
    (operand : Plain e) : Plain (applied o e)
  | enclosed {e : Term} (inside : Plain e) : Plain (enclosed e)

/-- A sign in front of a term. It is doubled by a sign that the term begins with, and where that is
doubled already, the rest of the term gets what is left over. -/
def signed (s : Sign) : Term → Term
  | applied (.double t) e =>
    if t = s then applied (.double s) (e.signed s) else applied (.single s) (applied (.double t) e)
  | applied (.single t) e =>
    if t = s then applied (.double s) e else applied (.single s) (applied (.single t) e)
  | e => applied (.single s) e

theorem chars_signed (s : Sign) (e : Term) : (e.signed s).chars = s.char :: e.chars := by
  fun_induction signed s e <;> simp_all [chars, Operator.chars]

theorem plain_single {s : Sign} {e : Term} (apart : ¬ e.BeginsWith s) (plain : e.Plain) :
    (applied (.single s) e).Plain := by
  refine .applied ?_ plain
  rintro _ ⟨⟩
  exact apart

theorem plain_double {s : Sign} {e : Term} (plain : e.Plain) : (applied (.double s) e).Plain :=
  .applied nofun plain

theorem Plain.signed (s : Sign) {e : Term} (plain : e.Plain) : (e.signed s).Plain := by
  fun_induction Term.signed s e with
  | case1 e ih =>
    cases plain with
    | applied _ operand => exact plain_double (ih operand)
  | case2 t e other => exact plain_single other plain
  | case3 e =>
    cases plain with
    | applied _ operand => exact plain_double operand
  | case4 t e other => exact plain_single other plain
  | case5 e double single =>
    refine plain_single (fun begins => ?_) plain
    unfold BeginsWith at begins
    split at begins
    · exact single _ _ rfl
    · exact double _ _ rfl
    · exact begins

/-- Operators are made as long as they can be. -/
def settled : Term → Term
  | name word => name word
  | applied (.single s) e => e.settled.signed s
  | applied o e => applied o e.settled
  | enclosed e => enclosed e.settled

theorem chars_settled (e : Term) : e.settled.chars = e.chars := by
  fun_induction settled e with
  | case1 => rfl
  | case2 s e ih => rw [chars_signed, ih, chars, Operator.chars, List.singleton_append]
  | case3 o e _ ih => rw [chars, ih, chars]
  | case4 e ih => rw [chars, ih, chars]

theorem plain_settled (e : Term) : e.settled.Plain := by
  fun_induction settled e with
  | case1 word => exact .name word
  | case2 s e ih => exact ih.signed s
  | case3 o e other ih => exact .applied (fun s single => absurd single (other s)) ih
  | case4 e ih => exact .enclosed ih

end Term

inductive Statement where
  | evaluated (e : Term)
  | block (statements : List Statement)
  | conditional (condition : Term) (yes : Statement)
  | alternative (condition : Term) (yes no : Statement)

namespace Statement

mutual

def node : Statement → Node
  | evaluated e => .expressionStatement e.node
  | block statements => .scope .block (nodes statements)
  | conditional c yes => .ifStatement c.node yes.node none
  | alternative c yes no => .ifStatement c.node yes.node (some no.node)

def nodes : List Statement → List Node
  | [] => []
  | s :: statements => s.node :: nodes statements

end

theorem nodes_eq (statements : List Statement) : nodes statements = statements.map node := by
  induction statements with
  | nil => rfl
  | cons s statements ih => rw [nodes, ih, List.map_cons]

/-- What holds of a statement when it holds of those directly inside holds of every statement. -/
theorem induction_on {P : Statement → Prop} (evaluated : ∀ e, P (evaluated e))
    (block : ∀ statements, (∀ s ∈ statements, P s) → P (block statements))
    (conditional : ∀ c yes, P yes → P (conditional c yes))
    (alternative : ∀ c yes no, P yes → P no → P (alternative c yes no)) : ∀ s, P s
  | .evaluated e => evaluated e
  | .block statements => block statements fun s _ =>
    induction_on evaluated block conditional alternative s
  | .conditional c yes => conditional c yes
    (induction_on evaluated block conditional alternative yes)
  | .alternative c yes no => alternative c yes no
    (induction_on evaluated block conditional alternative yes)
    (induction_on evaluated block conditional alternative no)

def chars (level : Nat) (s : Statement) : List Char := s.node.whole.chars level

def margin (level : Nat) : List Char := List.replicate (4 * level) ' '

def lines (level : Nat) (statements : List Statement) : List Char :=
  statements.flatMap fun s => margin level ++ (s.chars level ++ ['\n'])

variable (level : Nat)

theorem chars_evaluated (e : Term) : (evaluated e).chars level = e.chars ++ [';'] := by
  rw [chars, node, Node.whole_eq]
  simp [Print.layer, Term.chars_whole]

theorem chars_conditional (c : Term) (yes : Statement) : (conditional c yes).chars level =
    "if (".toList ++ (c.chars ++ ')' :: ' ' :: yes.chars level) := by
  rw [chars, node, Node.whole_eq]
  simp [Print.layer, Term.chars_whole, chars, Doc.after]

theorem chars_alternative (c : Term) (yes no : Statement) : (alternative c yes no).chars level =
    (conditional c yes).chars level ++ (" else ".toList ++ no.chars level) := by
  rw [chars_conditional, chars, node, Node.whole_eq]
  simp [Print.layer, Term.chars_whole, chars, Doc.after]

theorem chars_block_nil : (block []).chars level = "\x7b \x7d".toList := by
  rw [chars, node, Node.whole_eq]
  simp [Print.layer, Print.scope, Print.braced, nodes]

theorem chars_block_cons (s : Statement) (statements : List Statement) :
    (block (s :: statements)).chars level = "\x7b\n".toList ++
      (lines (level + 1) (s :: statements) ++ (margin level ++ ['\x7d'])) := by
  rw [chars, node, Node.whole_eq]
  simp [Print.layer, Print.scope, Print.braced, nodes_eq, Print.lines, List.flatMap_map, margin,
    lines, chars]

/-- Whether an else behind the statement would belong to a conditional in it. -/
def lacksElse : Statement → Bool
  | conditional _ _ => true
  | alternative _ _ no => no.lacksElse
  | _ => false

/-- No operator could be longer, and no else belong to a conditional further inside. -/
inductive Plain : Statement → Prop where
  | evaluated {e : Term} (expression : e.Plain) : Plain (evaluated e)
  | block {statements : List Statement} (inside : ∀ s ∈ statements, Plain s) :
    Plain (block statements)
  | conditional {c : Term} {yes : Statement} (condition : c.Plain) (branch : Plain yes) :
    Plain (conditional c yes)
  | alternative {c : Term} {yes no : Statement} (condition : c.Plain) (branch : Plain yes)
    (ended : yes.lacksElse = false) (other : Plain no) : Plain (alternative c yes no)

/-- An else behind a statement, with the nearest conditional that has none. -/
def withElse : Statement → Statement → Statement
  | conditional c yes, no =>
    if yes.lacksElse then conditional c (yes.withElse no) else alternative c yes no
  | alternative c yes other, no => alternative c yes (other.withElse no)
  | s, _ => s

theorem chars_withElse {s : Statement} (no : Statement) (lacks : s.lacksElse = true) :
    (s.withElse no).chars level = s.chars level ++ (" else ".toList ++ no.chars level) := by
  fun_induction withElse s no with
  | case1 c yes no inner ih => simp [chars_conditional, ih inner]
  | case2 c yes no => exact chars_alternative level c yes no
  | case3 c yes other no ih => simp [chars_alternative, ih lacks]
  | case4 s no single double =>
    unfold lacksElse at lacks
    split at lacks <;> simp_all

theorem Plain.withElse {s no : Statement} (plain : s.Plain) (other : no.Plain) :
    (s.withElse no).Plain := by
  induction plain with
  | evaluated expression => exact .evaluated expression
  | block inside => exact .block inside
  | @conditional c yes condition branch ih =>
    rw [Statement.withElse]
    split
    · exact .conditional condition ih
    · next ended => exact .alternative condition branch (Bool.eq_false_iff.mpr ended) other
  | alternative condition branch ended _ _ ih => exact .alternative condition branch ended ih

mutual

def settled : Statement → Statement
  | evaluated e => evaluated e.settled
  | block statements => block (settledAll statements)
  | conditional c yes => conditional c.settled yes.settled
  | alternative c yes no => (conditional c.settled yes.settled).withElse no.settled

def settledAll : List Statement → List Statement
  | [] => []
  | s :: statements => s.settled :: settledAll statements

end

theorem settledAll_eq (statements : List Statement) :
    settledAll statements = statements.map settled := by
  induction statements with
  | nil => rfl
  | cons s statements ih => rw [settledAll, ih, List.map_cons]

theorem chars_settled (s : Statement) : s.settled.chars level = s.chars level := by
  induction s using induction_on generalizing level with
  | evaluated e => rw [settled, chars_evaluated, Term.chars_settled, chars_evaluated]
  | block statements ih =>
    rw [settled]
    cases statements with
    | nil => rfl
    | cons s statements =>
      have same : lines (level + 1) ((s :: statements).map settled) =
          lines (level + 1) (s :: statements) := by
        rw [lines, List.flatMap_map]
        exact List.flatMap_congr fun t member => by rw [ih t member]
      rw [settledAll_eq, List.map_cons, chars_block_cons, ← List.map_cons, same, chars_block_cons]
  | conditional c yes ih =>
    rw [settled, chars_conditional, Term.chars_settled, ih, chars_conditional]
  | alternative c yes no ihYes ihNo =>
    rw [settled, chars_withElse level _ rfl, chars_conditional, Term.chars_settled, ihYes, ihNo,
      ← chars_conditional, chars_alternative]

theorem plain_settled (s : Statement) : s.settled.Plain := by
  induction s using induction_on with
  | evaluated e => exact .evaluated e.plain_settled
  | block statements ih =>
    rw [settled, settledAll_eq]
    exact .block (List.forall_mem_map.mpr ih)
  | conditional c yes ih => exact .conditional c.plain_settled ih
  | alternative c yes no ihYes ihNo =>
    exact (Plain.conditional c.plain_settled ihYes).withElse ihNo

end Statement
end PureEnum
