import PureEnum.Proofs.Result

/-! Profiles: what recognition asks of a statement. Recognition is a function of profiles alone,
and looks no further than the first statement that is no member and no wrapper call. Since a
visit keeps profiles, it neither hides an enum nor brings one about, and a list that was walked
holds none. -/
namespace PureEnum

structure Profile where
  /-- The one declared name and the size of its object literal, which may be missing. -/
  anchor : Option (String × Option Nat)
  property : String → Bool
  element : String → Bool
  lookup : String → Bool
  wrapper : String → Bool

/-- How many members the object literal after a declared name has. There may be no initializer,
but not another one. -/
def Node.literalSize? : Option Node → Option (Option Nat)
  | none => some none
  | some literal => literal.properties?.map fun properties => some properties.length

def Node.anchored? : Node → Option (String × Option Nat)
  | .variableStatement _ _ [declaration] =>
    return (← declaration.name.identifier?, ← literalSize? declaration.initializer)
  | _ => none

def Node.profile (s : Node) : Profile where
  anchor := s.anchored?
  property name := Enum.setsProperty name s
  element name := Enum.setsElement name s
  lookup name := Enum.setsNameLookup name s
  wrapper name := (Enum.wrapperCall? name s).isSome

namespace Profile

def run? (name : String) : Option Nat → List Profile → Option (Shape × Nat)
  | none, following => if following.head?.any (·.wrapper name) then some (.wrapped, 1) else none
  | some 0, following =>
    let elements := (following.dropWhile (·.property name)).takeWhile (·.element name)
    if elements.isEmpty then none
    else some (.flatIndexed, (following.takeWhile (·.property name)).length + elements.length)
  | some (members + 1), following =>
    if (following.takeWhile (·.lookup name)).length = members + 1 then
      some (.fixedCount, members + 1)
    else none

def find? : List Profile → Option (String × Shape × Nat)
  | [] => none
  | p :: following => do
    let (name, members) ← p.anchor
    let (shape, length) ← run? name members following
    if length < following.length then some (name, shape, length) else none

end Profile

def Candidate.outline (c : Candidate) : String × Shape × Nat := (c.name, c.shape, c.run.length)

namespace Profile

variable (name : String) (statements : List Node)

theorem takeWhile_property : (statements.map Node.profile).takeWhile (·.property name) =
    (statements.takeWhile (Enum.setsProperty name)).map Node.profile := List.takeWhile_map

theorem dropWhile_property : (statements.map Node.profile).dropWhile (·.property name) =
    (statements.dropWhile (Enum.setsProperty name)).map Node.profile := List.dropWhile_map

theorem takeWhile_element : (statements.map Node.profile).takeWhile (·.element name) =
    (statements.takeWhile (Enum.setsElement name)).map Node.profile := List.takeWhile_map

theorem takeWhile_lookup : (statements.map Node.profile).takeWhile (·.lookup name) =
    (statements.takeWhile (Enum.setsNameLookup name)).map Node.profile := List.takeWhile_map

end Profile

theorem Run.find?_eq_profile (name : String) (initializer : Option Node) (following : List Node) :
    (Run.find? name initializer following).map (fun run => (run.shape, run.length)) =
      (Node.literalSize? initializer).bind fun members =>
        Profile.run? name members (following.map Node.profile) := by
  unfold Run.find?
  cases initializer with
  | none =>
    cases following with
    | nil => rfl
    | cons s rest =>
      cases wrapped : Enum.wrapperCall? name s <;>
        simp [Node.literalSize?, Profile.run?, Node.profile, wrapped, shape, length]
  | some literal =>
    cases object : literal.properties? with
    | none => simp [Node.literalSize?, object]
    | some properties =>
      simp only [Node.literalSize?, object, Option.bind_eq_bind, Option.bind_some, Option.map_some]
      cases properties with
      | nil =>
        rw [List.length_nil, Profile.run?, Profile.takeWhile_property, Profile.dropWhile_property,
          Profile.takeWhile_element]
        cases elements : (following.dropWhile (Enum.setsProperty name)).takeWhile
            (Enum.setsElement name) with
        | nil => simp [Enum.flatMembers_eq, elements]
        | cons => simp [Enum.flatMembers_eq, elements, shape, length]
      | cons property properties =>
        rw [List.length_cons, Profile.run?, Profile.takeWhile_lookup, List.length_map,
          Enum.fixedMembers]
        by_cases same : (following.takeWhile (Enum.setsNameLookup name)).length =
            properties.length + 1
        · simp [same, shape, length]
        · simp [same]

/-- Recognition is a function of profiles. -/
theorem Candidate.find?_eq_profile (statements : List Node) :
    (find? statements).map outline = Profile.find? (statements.map Node.profile) := by
  cases statements with
  | nil => rfl
  | cons s following =>
    cases s with
    | variableStatement modifiers keyword declarations =>
      rcases declarations with _ | ⟨declaration, _ | _⟩
      · rfl
      · have behind := fun name => Run.find?_eq_profile name declaration.initializer following
        simp only [List.map_cons, Profile.find?, Node.profile, Node.anchored?, find?]
        cases declaration.name.identifier? with
        | none => rfl
        | some name =>
          specialize behind name
          cases literal : Node.literalSize? declaration.initializer with
          | none =>
            rw [literal, Option.bind_none, Option.map_eq_none_iff] at behind
            simp [behind]
          | some members =>
            rw [literal, Option.bind_some] at behind
            cases found : Run.find? name declaration.initializer following with
            | none =>
              rw [found, Option.map_none] at behind
              simp [← behind, found]
            | some run =>
              rw [found, Option.map_some] at behind
              by_cases short : run.length < following.length
              · simp [← behind, found, short, outline, Candidate.shape]
              · simp [← behind, found, short]
      · rfl
    | _ => rfl

namespace Profile

/-- Belongs to no run, whatever its name. -/
structure Silent (p : Profile) : Prop where
  property : ∀ name, p.property name = false
  element : ∀ name, p.element name = false
  lookup : ∀ name, p.lookup name = false
  wrapper : ∀ name, p.wrapper name = false

/-- Lists that are the same up to a statement that belongs to no run, or to their end. -/
inductive Agree : List Profile → List Profile → Prop where
  | nil : Agree [] []
  | same (p : Profile) : Agree left right → Agree (p :: left) (p :: right)
  | stop : Silent p → Silent q → Agree (p :: left) (q :: right)

namespace Agree

variable {left right : List Profile}

theorem nil_iff (agree : Agree left right) : left = [] ↔ right = [] := by
  cases agree <;> simp

theorem takeWhile (agree : Agree left right) {p : Profile → Bool}
    (stops : ∀ q, Silent q → p q = false) : left.takeWhile p = right.takeWhile p := by
  induction agree with
  | nil => rfl
  | same q _ ih => simp only [List.takeWhile_cons, ih]
  | stop first second => simp [stops _ first, stops _ second]

theorem dropWhile (agree : Agree left right) {p : Profile → Bool}
    (stops : ∀ q, Silent q → p q = false) : Agree (left.dropWhile p) (right.dropWhile p) := by
  induction agree with
  | nil => exact .nil
  | same q agree ih =>
    simp only [List.dropWhile_cons]
    split
    · exact ih
    · exact .same q agree
  | stop first second =>
    simp only [List.dropWhile_cons, stops _ first, stops _ second]
    exact .stop first second

/-- A run ends before the end of the one list exactly when it does in the other. -/
theorem length_takeWhile_lt_iff (agree : Agree left right) {p : Profile → Bool}
    (stops : ∀ q, Silent q → p q = false) :
    (left.takeWhile p).length < left.length ↔ (right.takeWhile p).length < right.length := by
  induction agree with
  | nil => rfl
  | same q _ ih =>
    simp only [List.takeWhile_cons]
    split
    · simpa using ih
    · simp
  | stop first second => simp [stops _ first, stops _ second]

end Agree

theorem run?_congr (name : String) (members : Option Nat) {left right : List Profile}
    (agree : Agree left right) : run? name members left = run? name members right ∧
      ∀ shape length, run? name members left = some (shape, length) →
        (length < left.length ↔ length < right.length) := by
  obtain _ | _ | members := members
  · cases agree with
    | nil => exact ⟨rfl, fun _ _ _ => Iff.rfl⟩
    | same q agree =>
      refine ⟨rfl, fun shape length found => ?_⟩
      have one : length = 1 := by
        simp only [run?] at found
        split at found <;> simp_all
      have := agree.nil_iff
      simp only [one, List.length_cons, Nat.lt_add_left_iff_pos, List.length_pos_iff, ne_eq, this]
    | stop first second => simp [run?, first.wrapper, second.wrapper]
  · have properties := agree.takeWhile (p := (·.property name)) fun q silent => silent.property name
    have behind := agree.dropWhile (p := (·.property name)) fun q silent => silent.property name
    have elements := behind.takeWhile (p := (·.element name)) fun q silent => silent.element name
    have ends := behind.length_takeWhile_lt_iff (p := (·.element name))
      fun q silent => silent.element name
    have covers := fun profiles : List Profile =>
      congrArg List.length (profiles.takeWhile_append_dropWhile (p := (·.property name)))
    refine ⟨by simp only [run?, properties, elements], fun shape length found => ?_⟩
    have total : length = (left.takeWhile (·.property name)).length +
        ((left.dropWhile (·.property name)).takeWhile (·.element name)).length := by
      simp only [run?] at found
      split at found <;> simp_all
    have first := covers left
    have second := covers right
    rw [List.length_append] at first second
    rw [properties] at first total
    rw [elements] at total ends
    omega
  · have lookups := agree.takeWhile (p := (·.lookup name)) fun q silent => silent.lookup name
    have ends := agree.length_takeWhile_lt_iff (p := (·.lookup name))
      fun q silent => silent.lookup name
    refine ⟨by simp only [run?, lookups], fun shape length found => ?_⟩
    have total : length = (left.takeWhile (·.lookup name)).length := by
      simp only [run?] at found
      split at found <;> simp_all
    rw [lookups] at total ends
    omega

/-- Recognition looks no further than the first statement that belongs to no run. -/
theorem find?_congr {p : Profile} {left right : List Profile} (agree : Agree left right) :
    find? (p :: left) = find? (p :: right) := by
  simp only [find?]
  cases p.anchor with
  | none => rfl
  | some anchor =>
    obtain ⟨same, short⟩ := run?_congr anchor.1 anchor.2 agree
    simp only [Option.bind_eq_bind, Option.bind_some, same]
    cases found : run? anchor.1 anchor.2 right with
    | none => rfl
    | some run =>
      have := short run.1 run.2 (same.trans found)
      simp only [Option.bind_some, this]

end Profile

/-! A visit keeps profiles, so it neither hides an enum nor brings one about. -/

theorem Gather.anchored?_result (depth : Nat) (s : Node) :
    (result depth s).anchored? = s.anchored? := by
  cases depth with
  | zero => rfl
  | succ depth =>
    cases s with
    | variableStatement modifiers keyword declarations =>
      rcases declarations with _ | ⟨⟨declared, initializer⟩, _ | _⟩
      · rfl
      · change Node.anchored? (.variableStatement modifiers keyword
          [⟨result depth declared, initializer.map (result depth)⟩]) = _
        have literal : Node.literalSize? (initializer.map (result depth)) =
            Node.literalSize? initializer := by
          cases initializer with
          | none => rfl
          | some literal =>
            simp only [Option.map_some, Node.literalSize?, properties?_result, Option.map_map]
            cases literal.properties? <;> simp
        simp only [Node.anchored?, identifier?_result, literal]
      · rfl
    | _ => rfl

/-- A visit keeps the profile of a statement, whatever it rewrites inside. -/
@[simp] theorem Gather.profile_result (depth : Nat) (s : Node) :
    (result depth s).profile = s.profile := by
  simp only [Node.profile, anchored?_result, Enum.setsProperty_result, Enum.setsElement_result,
    Enum.setsNameLookup_result, Enum.isSome_wrapperCall?_result]

theorem silent_of_evaluated? {s : Node} (h : s.evaluated? = none) : s.profile.Silent := by
  constructor <;> intro name
  · simp [Node.profile, Enum.setsProperty, Enum.target?_eq, h]
  · simp [Node.profile, Enum.setsElement, Enum.target?_eq, h]
  · simp [Node.profile, Enum.setsNameLookup, Enum.target?_eq, h]
  · simp [Node.profile, Enum.isSome_wrapperCall?, h]

/-- A walked list agrees with the list it came from up to the first enum, and neither is read
beyond it. -/
theorem Segmented.agree {statements : List Node} {segments : List Segment}
    (cut : Segmented statements segments) (depth : Nat) :
    Profile.Agree (statements.map Node.profile)
      ((segments.map (Segment.after (Gather.result depth))).map Node.profile) := by
  induction cut with
  | nil => exact .nil
  | pinned _ _ _ ih => exact .same _ ih
  | enum =>
    exact .stop (silent_of_evaluated? (Candidate.evaluated?_anchor _))
      (silent_of_evaluated? (Candidate.evaluated?_statement _))
  | plain s _ _ _ ih =>
    simp only [List.map_cons, Segment.after, Gather.profile_result]
    exact .same _ ih

theorem Candidate.find?_eq_none_iff (statements : List Node) :
    find? statements = none ↔ Profile.find? (statements.map Node.profile) = none := by
  rw [← find?_eq_profile, Option.map_eq_none_iff]

/-- No enum is left in a list that was walked, at any place. -/
theorem Segmented.find?_after {statements : List Node} {segments : List Segment}
    (cut : Segmented statements segments) (depth index : Nat) :
    Candidate.find? ((segments.map (Segment.after (Gather.result depth))).drop index) = none := by
  induction cut generalizing index with
  | nil => simp [Candidate.find?]
  | pinned _ imports _ ih =>
    cases index with
    | zero => exact Candidate.find?_of_isImport imports
    | succ index => exact ih index
  | enum _ _ _ ih =>
    cases index with
    | zero => exact Candidate.find?_statement _ _
    | succ index => exact ih index
  | plain _ _ missing cut ih =>
    cases index with
    | zero =>
      rw [Candidate.find?_eq_none_iff] at missing ⊢
      simp only [List.drop_zero, List.map_cons, Segment.after, Gather.profile_result] at missing ⊢
      rwa [← Profile.find?_congr (cut.agree depth)]
    | succ index => exact ih index

theorem Gather.at?_relist (depth : Nat) (statements : List Node) (index : Nat) :
    Candidate.at? (Segment.relist (result depth) statements) index = none :=
  (Segment.segmented_ofList statements).find?_after depth index

end PureEnum
