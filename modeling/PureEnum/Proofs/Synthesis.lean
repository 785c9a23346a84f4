import PureEnum.Proofs.Settled

/-! Synthesis: the two forms of a recognised enum and of the statement built for it. Members of a
literal are a run by themselves, whatever follows, and so is what a visit makes of them; the body
built around them therefore holds an enum again. -/
namespace PureEnum

/-- A statement that is no import and anchors no enum, whatever follows it. -/
def Node.StartsNothing (s : Node) : Prop :=
  s.isImport = false ∧ ∀ following, Candidate.find? (s :: following) = none

/-- A list of statements that start nothing is cut at every statement. -/
theorem segmented_plain {statements : List Node} (idle : ∀ s ∈ statements, s.StartsNothing) :
    Segmented statements (statements.map .plain) := by
  induction statements with
  | nil => exact .nil
  | cons s statements ih =>
    obtain ⟨other, none⟩ := idle s List.mem_cons_self
    exact .plain s other (none _) (ih fun t member => idle t (List.mem_cons_of_mem _ member))

@[simp] theorem Gather.result_identifier (depth : Nat) (name : String) :
    result depth (.identifier name) = .identifier name := by
  cases depth <;> rfl

namespace Enum

variable {name : String}

theorem startsNothing_of_setsReverse {s : Node} (member : setsReverse name s) :
    s.StartsNothing := by
  obtain ⟨_, _, _, rfl⟩ := setsReverse_iff.mp member
  exact ⟨rfl, fun _ => rfl⟩

/-- A visit of a wrapper body visits its members where they stand, whatever scope the body is. -/
theorem result_scope {members : List Node} (reverse : ∀ s ∈ members, setsReverse name s)
    (head : ScopeHead Node) (depth : Nat) : ∃ visited, Gather.result depth (.scope head members) =
      .scope visited (members.map (Gather.result (depth - 1))) := by
  cases depth with
  | zero => exact ⟨head, by simp [Gather.result_zero]⟩
  | succ depth =>
    have cut := segmented_plain fun s member => startsNothing_of_setsReverse (reverse s member)
    refine ⟨head.map (Gather.result depth), ?_⟩
    change Node.scope _ (Segment.relist (Gather.result depth) members) = _
    rw [Segment.relist, ← cut.eq_ofList, List.map_map]
    rfl

theorem result_block {members : List Node} (reverse : ∀ s ∈ members, setsReverse name s)
    (depth : Nat) :
    Gather.result depth (.block members) = .block (members.map (Gather.result (depth - 1))) := by
  obtain ⟨visited, body⟩ := result_scope reverse .block depth
  obtain rfl : visited = .block := by
    cases depth <;> exact (Node.scope.inj body).1.symm
  exact body

def isFlatRun (name : String) (members : List Node) : Bool :=
  let elements := members.dropWhile (setsProperty name)
  !elements.isEmpty && elements.all (setsElement name)

def isFixedRun (name : String) (size : Nat) (members : List Node) : Bool :=
  members.length == size && members.all (setsNameLookup name)

def isRun (name : String) (properties members : List Node) : Bool :=
  if properties.isEmpty then isFlatRun name members
  else isFixedRun name properties.length members

theorem setsProperty_of_setsElement {s : Node} (element : setsElement name s) :
    setsProperty name s = false := by
  obtain ⟨key, value, rfl⟩ := setsElement_iff.mp element
  rfl

theorem takeWhile_append_of_stops {p : Node → Bool} {run rest : List Node}
    (inside : ∀ s ∈ run, p s) (stops : ∀ s ∈ rest.head?, p s = false) :
    (run ++ rest).takeWhile p = run := by
  rw [List.takeWhile_append_of_pos inside]
  cases rest with
  | nil => simp
  | cons s rest => simp [stops s rfl]

/-- Elements are no properties, so a flat run falls into two parts in one way. -/
theorem dropWhile_append_elements {properties elements : List Node}
    (first : ∀ s ∈ properties, setsProperty name s) (nonempty : elements ≠ [])
    (second : ∀ s ∈ elements, setsElement name s) (rest : List Node) :
    (properties ++ (elements ++ rest)).takeWhile (setsProperty name) = properties ∧
      (properties ++ (elements ++ rest)).dropWhile (setsProperty name) = elements ++ rest := by
  obtain ⟨e, others, rfl⟩ := List.exists_cons_of_ne_nil nonempty
  have stops : setsProperty name e = false :=
    setsProperty_of_setsElement (second e List.mem_cons_self)
  refine ⟨takeWhile_append_of_stops first fun s head => ?_, ?_⟩
  · obtain rfl : e = s := by simpa using head
    exact stops
  · rw [List.dropWhile_append_of_pos first, List.cons_append,
      List.dropWhile_cons_of_neg (by simp [stops])]

theorem isFlatRun_iff {members : List Node} : isFlatRun name members ↔
    ∃ properties elements, members = properties ++ elements ∧ elements ≠ [] ∧
      (∀ s ∈ properties, setsProperty name s) ∧ ∀ s ∈ elements, setsElement name s := by
  constructor
  · intro run
    obtain ⟨nonempty, elements⟩ := Bool.and_eq_true_iff.mp run
    exact ⟨_, _, List.takeWhile_append_dropWhile.symm, by simpa using nonempty,
      fun s member => List.mem_takeWhile_imp member, List.all_eq_true.mp elements⟩
  · rintro ⟨properties, elements, rfl, nonempty, first, second⟩
    have behind := (dropWhile_append_elements first nonempty second []).2
    rw [List.append_nil] at behind
    rw [isFlatRun, behind]
    simpa [nonempty] using second

/-- A flat run is the longest one, unless another element follows. -/
theorem flatMembers_append {members rest : List Node} (run : isFlatRun name members)
    (stops : ∀ s ∈ rest.head?, setsElement name s = false) :
    flatMembers name (members ++ rest) = members := by
  obtain ⟨properties, elements, rfl, nonempty, first, second⟩ := isFlatRun_iff.mp run
  obtain ⟨before, behind⟩ := dropWhile_append_elements first nonempty second rest
  rw [flatMembers_eq, List.append_assoc, before, behind, takeWhile_append_of_stops second stops]
  simp [nonempty]

theorem isFlatRun_flatMembers {statements : List Node}
    (nonempty : flatMembers name statements ≠ []) :
    isFlatRun name (flatMembers name statements) := by
  simp only [flatMembers_eq] at nonempty ⊢
  split at nonempty
  case isTrue => contradiction
  case isFalse some =>
    rw [if_neg some]
    exact isFlatRun_iff.mpr ⟨_, _, rfl, by simpa using some,
      fun s member => List.mem_takeWhile_imp member,
      fun s member => List.mem_takeWhile_imp member⟩

theorem isFlatRun_map_result (depth : Nat) (members : List Node) :
    isFlatRun name (members.map (Gather.result depth)) = isFlatRun name members := by
  have property : setsProperty name ∘ Gather.result depth = setsProperty name :=
    funext (setsProperty_result name depth)
  simp [isFlatRun, List.dropWhile_map, property, Function.comp_def, setsElement_result]

theorem isFixedRun_map_result (size depth : Nat) (members : List Node) :
    isFixedRun name size (members.map (Gather.result depth)) = isFixedRun name size members := by
  simp [isFixedRun, Function.comp_def, setsNameLookup_result]

theorem isRun_map_result (properties : List Node) (depth : Nat) (members : List Node) :
    isRun name properties (members.map (Gather.result depth)) = isRun name properties members := by
  rw [isRun, isRun, isFlatRun_map_result, isFixedRun_map_result]

theorem evaluates_of_isRun {properties members : List Node} (run : isRun name properties members) :
    ∀ s ∈ members, ∃ e, s = .expressionStatement e := by
  intro s member
  unfold isRun at run
  split at run
  · obtain ⟨first, second, rfl, -, isProperty, isElement⟩ := isFlatRun_iff.mp run
    rcases List.mem_append.mp member with member | member
    · obtain ⟨_, _, rfl⟩ := setsProperty_iff.mp (isProperty s member)
      exact ⟨_, rfl⟩
    · obtain ⟨_, _, rfl⟩ := setsElement_iff.mp (isElement s member)
      exact ⟨_, rfl⟩
  · have lookup := List.all_eq_true.mp (Bool.and_eq_true_iff.mp run).2 s member
    obtain ⟨_, _, rfl⟩ := setsNameLookup_iff.mp lookup
    exact ⟨_, rfl⟩

end Enum

namespace Candidate

def ofRun (modifiers : Modifiers) (keyword : Keyword) (name : String)
    (properties members : List Node) : Candidate :=
  ⟨name, modifiers, keyword, ⟨.identifier name, some (.objectLiteralExpression properties)⟩,
    if properties.isEmpty then .flat members else .fixed members⟩

def ofCall (modifiers : Modifiers) (keyword : Keyword) (name : String) (call : Node) : Candidate :=
  ⟨name, modifiers, keyword, ⟨.identifier name, none⟩, .wrapper call⟩

/-- A wrapper over a block returns its parameter at the end of the block. -/
theorem statement_ofCall (modifiers : Modifiers) (keyword : Keyword) (name : String)
    (functionModifiers : Modifiers) (label : Option String) (parameter : Parameter Node)
    (members arguments : List Node) :
    (ofCall modifiers keyword name (Enum.wrapperCallOf functionModifiers label parameter
      (.block members) arguments)).statement =
    (ofCall modifiers keyword name .emptyStatement).host (Enum.wrapperCallOf functionModifiers
      label parameter (.block (members ++ [.returnStatement (some parameter.name)]))
        [.emptyObject]) := rfl

@[simp] theorem parts_ofCall (modifiers : Modifiers) (keyword : Keyword) (name : String)
    (call : Node) : (ofCall modifiers keyword name call).run.parts = [call] := rfl

@[simp] theorem visited_ofCall (modifiers : Modifiers) (keyword : Keyword) (name : String)
    (call : Node) (f : Node → Node) : (ofCall modifiers keyword name call).visited f =
      ofCall modifiers keyword name (f call) := rfl

section OfRun

variable (modifiers : Modifiers) (keyword : Keyword) (name : String)
variable (properties members : List Node)

@[simp] theorem parts_ofRun :
    (ofRun modifiers keyword name properties members).run.parts = members := by
  cases properties <;> rfl

@[simp] theorem visited_ofRun (f : Node → Node) :
    (ofRun modifiers keyword name properties members).visited f =
      ofRun modifiers keyword name properties (members.map f) := by
  cases properties <;> rfl

@[simp] theorem statement_ofRun : (ofRun modifiers keyword name properties members).statement =
    (ofRun modifiers keyword name properties members).host
      (Enum.membersCall name (some (.objectLiteralExpression properties)) members) := by
  cases properties <;> rfl

theorem outline_ofRun : (ofRun modifiers keyword name properties members).outline =
    (name, if properties.isEmpty then .flatIndexed else .fixedCount, members.length) := by
  cases properties <;> rfl

theorem shape_ofRun : (ofRun modifiers keyword name properties members).shape ≠ .wrapped := by
  cases properties <;> exact Shape.noConfusion

end OfRun

/-- A recognised enum is the call of a wrapper or members behind a literal. -/
theorem Fits.call_or_run {c : Candidate} {run rest : List Node} (fits : c.Fits run rest) :
    (∃ modifiers keyword name s call, c = ofCall modifiers keyword name call ∧ run = [s] ∧
      Enum.wrapperCall? name s = some call) ∨
    ∃ modifiers keyword name properties, c = ofRun modifiers keyword name properties run ∧
      Enum.isRun name properties run := by
  cases fits with
  | wrapper found => exact .inl ⟨_, _, _, _, _, rfl, rfl, found⟩
  | @flat _ _ owner modifiers keyword nonempty longest =>
    refine .inr ⟨modifiers, keyword, owner, [], rfl, ?_⟩
    rw [← longest] at nonempty ⊢
    exact Enum.isFlatRun_flatMembers nonempty
  | @fixed properties _ _ owner modifiers keyword nonempty length longest =>
    refine .inr ⟨modifiers, keyword, owner, properties, ?_, ?_⟩
    · simp [ofRun, nonempty]
    · have lookups : run.all (Enum.setsNameLookup owner) := by
        rw [← longest]
        exact List.all_eq_true.mpr fun s member => List.mem_takeWhile_imp member
      simpa [Enum.isRun, Enum.isFixedRun, nonempty, length] using lookups

/-- Members behind a literal are recognised in front of any statement that evaluates nothing. -/
theorem fits_ofRun {modifiers : Modifiers} {keyword : Keyword} {name : String}
    {properties members rest : List Node} {s : Node} (run : Enum.isRun name properties members)
    (silent : s.evaluated? = none) :
    (ofRun modifiers keyword name properties members).Fits members (s :: rest) := by
  by_cases empty : properties.isEmpty
  · obtain rfl := List.isEmpty_iff.mp empty
    have longest : Enum.flatMembers name (members ++ s :: rest) = members :=
      Enum.flatMembers_append run (by simp [Enum.setsElement, Enum.target?_eq, silent])
    refine .flat ?_ longest (List.cons_ne_nil _ _)
    obtain ⟨first, second, rfl, nonempty, -⟩ := Enum.isFlatRun_iff.mp run
    simp [nonempty]
  · rw [Enum.isRun, if_neg empty, Enum.isFixedRun, Bool.and_eq_true_iff] at run
    have longest : Enum.fixedMembers name (members ++ s :: rest) = members :=
      Enum.takeWhile_append_of_stops (List.all_eq_true.mp run.2) (by
        simp [Enum.setsNameLookup, Enum.target?_eq, silent])
    rw [ofRun, if_neg empty]
    exact .fixed (by simpa using empty) (by simpa using run.1) longest (List.cons_ne_nil _ _)

end Candidate
end PureEnum
