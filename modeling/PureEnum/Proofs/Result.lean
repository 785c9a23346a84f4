import PureEnum.Proofs.Traversal
import PureEnum.Proofs.Recognition

/-! The plain pass: what a node becomes, with nothing kept and nothing noted. A rebuild leaves
everything that recognition looks at as it is, and a rebuilt statement list holds no enum. -/
namespace PureEnum

namespace ScopeHead

def children : ScopeHead ν → List ν
  | caseOf test => [test]
  | file _ | block | moduleBlock | defaultCase => []

def map (f : ν → μ) : ScopeHead ν → ScopeHead μ
  | caseOf test => caseOf (f test)
  | file name => file name
  | block => block
  | moduleBlock => moduleBlock
  | defaultCase => defaultCase

theorem children_map (f : ν → μ) (head : ScopeHead ν) :
    (head.map f).children = head.children.map f := by
  cases head <;> rfl

end ScopeHead

namespace Run

variable {ν μ : Type}

@[simp] theorem shape_map (f : ν → μ) (run : Run ν) : (run.map f).shape = run.shape := by
  cases run <;> rfl

@[simp] theorem length_map (f : ν → μ) (run : Run ν) : (run.map f).length = run.length := by
  cases run <;> simp [map, length]

theorem parts_map (f : ν → μ) (run : Run ν) : (run.map f).parts = run.parts.map f := by
  cases run <;> rfl

theorem map_map {κ : Type} (g : μ → κ) (f : ν → μ) (run : Run ν) :
    (run.map f).map g = run.map (g ∘ f) := by
  cases run <;> simp [map]

end Run

namespace Candidate

def visited (f : Node → Node) (c : Candidate) : Candidate := { c with run := c.run.map f }

@[simp] theorem shape_visited (f : Node → Node) (c : Candidate) :
    (c.visited f).shape = c.shape := c.run.shape_map f

@[simp] theorem length_visited (f : Node → Node) (c : Candidate) :
    (c.visited f).run.length = c.run.length := c.run.length_map f

/-- The statement that an enum becomes. Recognition gives no call for which there is none. -/
def statement (c : Candidate) : Node :=
  match c.enclosed with
  | .ok statement => statement
  | .error _ => .emptyStatement

end Candidate

namespace Segment

def parts : Segment → List Node
  | pinned _ => []
  | plain s => [s]
  | enum _ c => c.run.parts

def after (f : Node → Node) : Segment → Node
  | pinned s => s
  | plain s => f s
  | enum _ c => (c.visited f).statement

def relist (f : Node → Node) (statements : List Node) : List Node :=
  (ofList statements).map (after f)

end Segment

def Node.rebuild (f : Node → Node) : Node → Node
  | .scope head statements => .scope (head.map f) (Segment.relist f statements)
  | n => (n.layer.map f).node

def Gather.result : (depth : Nat) → Node → Node
  | 0, n => n
  | depth + 1, n => n.rebuild (result depth)

namespace Node

theorem scope_or (n : Node) :
    (∃ head statements, n = .scope head statements) ∨ n.statements? = none := by
  cases n with
  | scope head statements => exact .inl ⟨head, statements, rfl⟩
  | _ => exact .inr rfl

theorem rebuild_of_not_scope {f : Node → Node} {n : Node} (h : n.statements? = none) :
    n.rebuild f = (n.layer.map f).node := by
  cases n with
  | scope => simp at h
  | _ => rfl

theorem statements?_map {f : Node → Node} {n : Node} (h : n.statements? = none) :
    (n.layer.map f).node.statements? = none := by
  cases n with
  | scope => simp at h
  | _ => rfl

theorem children_map (f : Node → Node) (n : Node) :
    (n.layer.map f).node.children = n.children.map f := by
  rw [children, Layer.layer_node, Layer.children_map]
  rfl

@[simp] theorem identifier?_rebuild (f : Node → Node) (n : Node) :
    (n.rebuild f).identifier? = n.identifier? := by
  cases n <;> rfl

@[simp] theorem evaluated?_rebuild (f : Node → Node) (n : Node) :
    (n.rebuild f).evaluated? = n.evaluated?.map f := by
  cases n <;> rfl

@[simp] theorem properties?_rebuild (f : Node → Node) (n : Node) :
    (n.rebuild f).properties? = n.properties?.map (List.map f) := by
  cases n <;> rfl

@[simp] theorem isImport_rebuild (f : Node → Node) (n : Node) :
    (n.rebuild f).isImport = n.isImport := by
  cases n <;> rfl

theorem assignment?_rebuild (f : Node → Node) (n : Node) :
    (n.rebuild f).assignment? = n.assignment?.map (Prod.map f f) := by
  cases n with
  | binaryExpression left operator right =>
    change (Node.binaryExpression (f left) operator (f right)).assignment? = _
    by_cases h : operator = "="
    · subst h; rfl
    · simp [assignment?, h]
  | _ => rfl

end Node

/-! A visit at depth zero is no rebuild; truncated subtraction gives both cases one equation. -/
namespace Gather

variable (depth : Nat)

theorem result_zero : result 0 = id := rfl

@[simp] theorem identifier?_result (n : Node) : (result depth n).identifier? = n.identifier? := by
  cases depth with
  | zero => rfl
  | succ depth => exact Node.identifier?_rebuild _ n

@[simp] theorem isNamed_result (name : String) (n : Node) :
    (result depth n).isNamed name = n.isNamed name := by
  rw [Node.isNamed, identifier?_result, ← Node.isNamed]

theorem evaluated?_result (n : Node) :
    (result depth n).evaluated? = n.evaluated?.map (result (depth - 1)) := by
  cases depth with
  | zero => simp [result_zero]
  | succ depth => exact Node.evaluated?_rebuild _ n

theorem assignment?_result (n : Node) : (result depth n).assignment? =
    n.assignment?.map (Prod.map (result (depth - 1)) (result (depth - 1))) := by
  cases depth with
  | zero => simp [result_zero]
  | succ depth => exact Node.assignment?_rebuild _ n

theorem properties?_result (n : Node) :
    (result depth n).properties? = n.properties?.map (List.map (result (depth - 1))) := by
  cases depth with
  | zero => simp [result_zero]
  | succ depth => exact Node.properties?_rebuild _ n

@[simp] theorem isImport_result (n : Node) : (result depth n).isImport = n.isImport := by
  cases depth with
  | zero => rfl
  | succ depth => exact Node.isImport_rebuild _ n

end Gather

namespace Enum

open Gather

theorem target?_eq (s : Node) :
    target? s = (s.evaluated?.bind Node.assignment?).map Prod.fst := by
  simp only [target?, Option.bind_eq_bind, Option.pure_def]
  cases s.evaluated? with
  | none => rfl
  | some e => cases h : e.assignment? <;> simp [h]

theorem target?_result (depth : Nat) (s : Node) :
    target? (result depth s) = (target? s).map (result (depth - 1 - 1)) := by
  simp only [target?_eq, evaluated?_result]
  cases s.evaluated? with
  | none => rfl
  | some e => cases h : e.assignment? <;> simp [assignment?_result, h]

theorem keyOf?_result (name : String) (depth : Nat) (n : Node) :
    keyOf? name (result depth n) = (keyOf? name n).map (result (depth - 1)) := by
  cases depth with
  | zero => simp [result_zero]
  | succ depth =>
    cases n with
    | elementAccessExpression owner key =>
      change keyOf? name (.elementAccessExpression (result depth owner) (result depth key)) = _
      simp only [keyOf?, isNamed_result]
      split <;> rfl
    | _ => rfl

theorem isPropertyOf_result (name : String) (depth : Nat) (n : Node) :
    isPropertyOf name (result depth n) = isPropertyOf name n := by
  cases depth with
  | zero => rfl
  | succ depth =>
    cases n with
    | propertyAccessExpression owner _ => exact isNamed_result depth name owner
    | _ => rfl

theorem setsProperty_result (name : String) (depth : Nat) (s : Node) :
    setsProperty name (result depth s) = setsProperty name s := by
  rw [setsProperty, target?_result, setsProperty]
  cases target? s with
  | none => rfl
  | some target => exact isPropertyOf_result name _ target

theorem setsElement_result (name : String) (depth : Nat) (s : Node) :
    setsElement name (result depth s) = setsElement name s := by
  rw [setsElement, target?_result, setsElement]
  cases target? s with
  | none => rfl
  | some target => simp [keyOf?_result]

theorem setsNameLookup_result (name : String) (depth : Nat) (s : Node) :
    setsNameLookup name (result depth s) = setsNameLookup name s := by
  rw [setsNameLookup, target?_result, setsNameLookup]
  cases target? s with
  | none => rfl
  | some target =>
    cases key : keyOf? name target <;> simp [keyOf?_result, key, isPropertyOf_result]

theorem setsReverse_result (name : String) (depth : Nat) (s : Node) :
    setsReverse name (result depth s) = setsReverse name s := by
  rw [setsReverse, target?_result, setsReverse]
  cases target? s with
  | none => rfl
  | some target =>
    cases key : keyOf? name target with
    | none => simp [keyOf?_result, key]
    | some k =>
      cases inner : k.assignment? <;>
        simp [keyOf?_result, key, assignment?_result, inner]

end Enum

/-! What an enum becomes is no member, no wrapper call, no import and no anchor. -/
namespace Candidate

theorem statement_cases (c : Candidate) :
    c.statement = .emptyStatement ∨ ∃ call, c.statement = c.host call := by
  unfold statement
  cases built : c.enclosed with
  | error _ => exact .inl rfl
  | ok statement =>
    apply Or.inr
    unfold enclosed at built
    split at built
    case h_1 call _ =>
      cases made : Enum.wrapperCall c.name call with
      | error _ => simp [made] at built
      | ok rebuilt =>
        refine ⟨rebuilt, ?_⟩
        simpa [made] using built.symm
    · exact ⟨_, (Except.ok.inj built).symm⟩
    · exact ⟨_, (Except.ok.inj built).symm⟩

@[simp] theorem evaluated?_anchor (c : Candidate) : c.anchor.evaluated? = none := rfl

@[simp] theorem evaluated?_statement (c : Candidate) : c.statement.evaluated? = none := by
  rcases c.statement_cases with h | ⟨_, h⟩ <;> rw [h] <;> rfl

@[simp] theorem isImport_statement (c : Candidate) : c.statement.isImport = false := by
  rcases c.statement_cases with h | ⟨_, h⟩ <;> rw [h] <;> rfl

@[simp] theorem find?_statement (c : Candidate) (following : List Node) :
    find? (c.statement :: following) = none := by
  rcases c.statement_cases with h | ⟨_, h⟩ <;> rw [h]
  · rfl
  · simp only [host, find?, Option.bind_eq_bind]
    cases c.declaration.name.identifier? <;> rfl

end Candidate

namespace Enum

theorem setsReverse_of_evaluated? {name : String} {s : Node} (h : s.evaluated? = none) :
    setsReverse name s = false := by
  simp [setsReverse, target?_eq, h]

theorem setsReverse_anchor (name : String) (c : Candidate) :
    setsReverse name c.anchor = false := rfl

theorem setsReverse_statement (name : String) (c : Candidate) :
    setsReverse name c.statement = false := setsReverse_of_evaluated? c.evaluated?_statement

/-- Whether all statements are members does not change when the list is walked: an anchor is no
member, and neither is what stands in its place. -/
theorem all_setsReverse_after {statements : List Node} {segments : List Segment}
    (cut : Segmented statements segments) (name : String) (depth : Nat) :
    (segments.map (Segment.after (Gather.result depth))).all (setsReverse name) =
      statements.all (setsReverse name) := by
  induction cut with
  | nil => rfl
  | pinned _ _ _ ih => simp only [List.map_cons, List.all_cons, Segment.after, ih]
  | enum => simp [Segment.after, setsReverse_anchor, setsReverse_statement]
  | plain s _ _ _ ih =>
    simp only [List.map_cons, List.all_cons, Segment.after, ih, setsReverse_result]

def callee? : Node → Option Node
  | .callExpression callee _ => some callee
  | _ => none

def inParens? : Node → Option Node
  | .parenthesizedExpression inner => some inner
  | _ => none

def function? : Node → Option (List (Parameter Node) × Node)
  | .functionExpression _ _ parameters body => some (parameters, body)
  | _ => none

def fills (name : String) (call : Node) : Bool :=
  match ((callee? call).bind inParens?).bind function? with
  | some ([parameter], body) => !parameter.rest && parameter.name.isNamed name &&
      body.statements?.any fun statements => statements.all (setsReverse name)
  | _ => false

theorem isSome_wrapperCall? (name : String) (s : Node) :
    (wrapperCall? name s).isSome = s.evaluated?.any fun e => fills name e.skipParens := by
  unfold wrapperCall?
  cases s.evaluated? with
  | none => rfl
  | some e =>
    simp only [Option.bind_eq_bind, Option.bind_some, Option.any_some]
    split
    case h_1 parameter body _ form =>
      cases statements : body.statements? with
      | none => simp [fills, callee?, inParens?, function?, form, statements]
      | some L =>
        simp only [fills, callee?, inParens?, function?, form, statements, Option.bind_some,
          Option.any_some]
        split <;> simp_all
    case h_2 other =>
      symm
      rw [Option.isSome_none]
      generalize e.skipParens = call at other
      unfold fills
      split
      case h_1 parameter body found =>
        obtain ⟨_, callee, isFunction⟩ := Option.bind_eq_some_iff.mp found
        obtain ⟨_, isCall, isParens⟩ := Option.bind_eq_some_iff.mp callee
        unfold callee? at isCall
        unfold inParens? at isParens
        unfold function? at isFunction
        split at isCall <;> split at isParens <;> split at isFunction <;> simp_all
      case h_2 => rfl

theorem callee?_result (depth : Nat) (n : Node) :
    callee? (Gather.result depth n) = (callee? n).map (Gather.result (depth - 1)) := by
  cases depth with
  | zero => simp [Gather.result_zero]
  | succ depth => cases n <;> rfl

theorem inParens?_result (depth : Nat) (n : Node) :
    inParens? (Gather.result depth n) = (inParens? n).map (Gather.result (depth - 1)) := by
  cases depth with
  | zero => simp [Gather.result_zero]
  | succ depth => cases n <;> rfl

theorem function?_result (depth : Nat) (n : Node) : function? (Gather.result depth n) =
    (function? n).map (Prod.map (List.map (Parameter.map (Gather.result (depth - 1))))
      (Gather.result (depth - 1))) := by
  cases depth with
  | zero =>
    have same : Parameter.map (id : Node → Node) = id := funext Parameter.map_id
    simp [Gather.result_zero, same]
  | succ depth => cases n <;> rfl

theorem any_statements?_result (name : String) (depth : Nat) (body : Node) :
    ((Gather.result depth body).statements?.any fun statements =>
        statements.all (setsReverse name)) =
      body.statements?.any fun statements => statements.all (setsReverse name) := by
  cases depth with
  | zero => rfl
  | succ depth =>
    cases body with
    | scope head statements =>
      rw [Gather.result, Node.rebuild, Node.statements?_scope, Node.statements?_scope]
      exact all_setsReverse_after (Segment.segmented_ofList statements) name depth
    | _ => rfl

theorem fills_result (name : String) (depth : Nat) (call : Node) :
    fills name (Gather.result depth call) = fills name call := by
  have inside : ((callee? (Gather.result depth call)).bind inParens?).bind function? =
      (((callee? call).bind inParens?).bind function?).map
        (Prod.map (List.map (Parameter.map (Gather.result (depth - 1 - 1 - 1))))
          (Gather.result (depth - 1 - 1 - 1))) := by
    rw [callee?_result]
    cases callee? call with
    | none => rfl
    | some callee =>
      simp only [Option.map_some, Option.bind_some, inParens?_result]
      cases inParens? callee with
      | none => rfl
      | some inner => simp [function?_result]
  unfold fills
  rw [inside]
  rcases ((callee? call).bind inParens?).bind function? with _ | ⟨_ | ⟨parameter, _ | _⟩, body⟩
  all_goals simp [Parameter.map, any_statements?_result]

theorem skipParens_result (depth : Nat) (n : Node) :
    ∃ less, (Gather.result depth n).skipParens = Gather.result less n.skipParens := by
  induction depth generalizing n with
  | zero => exact ⟨0, rfl⟩
  | succ depth ih =>
    cases n with
    | parenthesizedExpression inner => exact ih inner
    | _ => exact ⟨depth + 1, rfl⟩

theorem isSome_wrapperCall?_result (name : String) (depth : Nat) (s : Node) :
    (wrapperCall? name (Gather.result depth s)).isSome = (wrapperCall? name s).isSome := by
  simp only [isSome_wrapperCall?, Gather.evaluated?_result]
  cases s.evaluated? with
  | none => rfl
  | some e =>
    obtain ⟨less, inside⟩ := skipParens_result (depth - 1) e
    simp [inside, fills_result]

end Enum
end PureEnum
