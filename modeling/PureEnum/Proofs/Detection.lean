import PureEnum.Proofs.Synthesis

/-! Detection: what is recognised, said by the form of the statements alone. Behind an anchor
stands the longest run of the form that its initializer asks for, and something behind that.
Nothing in front of the anchor counts, and nothing further behind the run than the next
statement. -/
namespace PureEnum

namespace Enum

variable {name : String}

/-- `X._ = _;` -/
def SetsProperty (name : String) (s : Node) : Prop := ∃ member value, s = .expressionStatement
  (.assign (.propertyAccessExpression (.identifier name) member) value)

/-- `X[_] = _;` -/
def SetsElement (name : String) (s : Node) : Prop := ∃ key value, s = .expressionStatement
  (.assign (.elementAccessExpression (.identifier name) key) value)

/-- `X[X._] = _;` -/
def SetsNameLookup (name : String) (s : Node) : Prop := ∃ member value, s = .expressionStatement
  (.assign (.elementAccessExpression (.identifier name)
    (.propertyAccessExpression (.identifier name) member)) value)

/-- `X[X[_] = _] = _;` -/
def SetsReverse (name : String) (s : Node) : Prop := ∃ key inner value, s = .expressionStatement
  (.assign (.elementAccessExpression (.identifier name)
    (.assign (.elementAccessExpression (.identifier name) key) inner)) value)

/-- `X._ = _; … X[_] = _; …`, any number of properties and then at least one element. -/
def FlatRun (name : String) (run : List Node) : Prop := ∃ properties elements,
  run = properties ++ elements ∧ elements ≠ [] ∧
    (∀ s ∈ properties, SetsProperty name s) ∧ ∀ s ∈ elements, SetsElement name s

/-- `X[X._] = _; …` -/
def LookupRun (name : String) (run : List Node) : Prop := ∀ s ∈ run, SetsNameLookup name s

/-- A prefix of some form that no other prefix of this form outreaches. -/
def Longest (form : List Node → Prop) (following run : List Node) : Prop :=
  run <+: following ∧ form run ∧
    ∀ other, other <+: following → form other → other.length ≤ run.length

theorem Longest.unique {form : List Node → Prop} {following first second : List Node}
    (one : Longest form following first) (two : Longest form following second) :
    first = second := by
  have shorter := two.2.2 first one.1 one.2.1
  have longer := one.2.2 second two.1 two.2.1
  exact (List.prefix_of_prefix_length_le one.1 two.1 shorter).eq_of_length_le longer

/-- The next statement does not go on with the form. -/
theorem Longest.stops {form : List Node → Prop} {run rest : List Node}
    (longest : Longest form (run ++ rest) run) : ∀ s ∈ rest.head?, ¬ form (run ++ [s]) := by
  intro s next longer
  have start : run ++ [s] <+: run ++ rest := by
    obtain ⟨behind, rfl⟩ := List.head?_eq_some_iff.mp next
    exact ⟨behind, by simp⟩
  have := longest.2.2 _ start longer
  simp only [List.length_append, List.length_singleton] at this
  omega

theorem FlatRun.concat {run : List Node} {s : Node} (flat : FlatRun name run)
    (element : SetsElement name s) : FlatRun name (run ++ [s]) := by
  obtain ⟨properties, elements, rfl, -, first, second⟩ := flat
  refine ⟨properties, elements ++ [s], List.append_assoc .., by simp, first, ?_⟩
  intro t member
  rcases List.mem_append.mp member with member | member
  · exact second t member
  · rwa [List.mem_singleton.mp member]

theorem LookupRun.concat {run : List Node} {s : Node} (lookups : LookupRun name run)
    (lookup : SetsNameLookup name s) : LookupRun name (run ++ [s]) := by
  intro t member
  rcases List.mem_append.mp member with member | member
  · exact lookups t member
  · rwa [List.mem_singleton.mp member]

theorem flatRun_iff {run : List Node} : FlatRun name run ↔ isFlatRun name run := by
  simp only [isFlatRun_iff, setsProperty_iff, setsElement_iff]
  rfl

/-- A flat run in front of any statements is at most as long as the members found there. -/
theorem flatRun_prefix_members {run following : List Node} (flat : FlatRun name run)
    (start : run <+: following) : run <+: flatMembers name following := by
  obtain ⟨rest, rfl⟩ := start
  have matched := flatRun_iff.mp flat
  obtain ⟨properties, elements, rfl, nonempty, first, second⟩ := isFlatRun_iff.mp matched
  obtain ⟨before, behind⟩ := dropWhile_append_elements first nonempty second rest
  have some : (elements ++ rest).takeWhile (setsElement name) =
      elements ++ rest.takeWhile (setsElement name) := List.takeWhile_append_of_pos second
  rw [flatMembers_eq, List.append_assoc, before, behind, some, if_neg (by simp [nonempty])]
  exact ⟨_, List.append_assoc ..⟩

theorem longest_flatRun_iff {following run : List Node} :
    Longest (FlatRun name) following run ↔ run ≠ [] ∧ flatMembers name following = run := by
  have found : ∀ other, FlatRun name other → other <+: following →
      Longest (FlatRun name) following (flatMembers name following) := by
    intro other flat start
    have within := flatRun_prefix_members flat start
    have first := flatMembers_prefix name following
    refine ⟨first, flatRun_iff.mpr (isFlatRun_flatMembers ?_),
      fun other start flat => (flatRun_prefix_members flat start).length_le⟩
    intro none
    obtain ⟨properties, elements, rfl, nonempty, -⟩ := flat
    rw [none] at within
    exact nonempty (List.append_eq_nil_iff.mp (List.prefix_nil.mp within)).2
  constructor
  · intro longest
    refine ⟨?_, (found run longest.2.1 longest.1).unique longest⟩
    rintro rfl
    obtain ⟨properties, elements, split, nonempty, -⟩ := longest.2.1
    exact nonempty (List.append_eq_nil_iff.mp split.symm).2
  · rintro ⟨nonempty, rfl⟩
    have start := flatMembers_prefix name following
    exact found _ (flatRun_iff.mpr (isFlatRun_flatMembers nonempty)) start

theorem longest_lookupRun_iff {following run : List Node} :
    Longest (LookupRun name) following run ↔ fixedMembers name following = run := by
  have holds : ∀ {s}, SetsNameLookup name s ↔ setsNameLookup name s := setsNameLookup_iff.symm
  have found : Longest (LookupRun name) following (fixedMembers name following) := by
    have start := fixedMembers_prefix name following
    refine ⟨start, fun s member => holds.mpr (List.mem_takeWhile_imp member), ?_⟩
    rintro other ⟨rest, rfl⟩ lookups
    rw [fixedMembers, List.takeWhile_append_of_pos fun s member => holds.mp (lookups s member)]
    simp
  constructor
  · exact fun longest => found.unique longest
  · rintro rfl
    exact found

end Enum

namespace Node

/-- Parentheses around a node that is not in any. -/
theorem skipParens_eq_iff {e inner : Node} (bare : inner.skipParens = inner) :
    e.skipParens = inner ↔ ∃ count, e = Nat.repeat parenthesizedExpression count inner := by
  constructor
  · intro inside
    induction e using skipParens.induct with
    | case1 e ih =>
      obtain ⟨count, rfl⟩ := ih (by simpa [skipParens] using inside)
      exact ⟨count + 1, rfl⟩
    | case2 e other =>
      rw [skipParens] at inside
      · exact ⟨0, inside⟩
      · exact other
  · rintro ⟨count, rfl⟩
    induction count with
    | zero => exact bare
    | succ count ih => exact ih

end Node

/-- What stands behind an anchor: a run of statements, the shape it has, and what it is taken for.
The initializer of the anchor decides which form the run must have. -/
inductive Run.Behind (name : String) : (initializer : Option Node) → (following : List Node) →
    (shape : Shape) → (statements : List Node) → Run Node → Prop where
  /-- A call of a function of one parameter `X` over members, itself in parentheses once and the
  call in any number of them. -/
  | wrapper (count : Nat) {call : Node} :
      call = Enum.wrapperCallOf modifiers label ⟨.identifier name, initializer, false⟩
        (.scope head members) arguments →
      (∀ s ∈ members, Enum.SetsReverse name s) →
      s = .expressionStatement (Nat.repeat .parenthesizedExpression count call) →
      Behind name none (s :: rest) .wrapped [s] (.wrapper call)
  | flat : Enum.Longest (Enum.FlatRun name) following run →
      Behind name (some (.objectLiteralExpression [])) following .flatIndexed run (.flat run)
  | fixed : properties ≠ [] → Enum.Longest (Enum.LookupRun name) following run →
      run.length = properties.length →
      Behind name (some (.objectLiteralExpression properties)) following .fixedCount run
        (.fixed run)

theorem Enum.wrapperCall?_eq_some_iff {name : String} {s call : Node} {rest : List Node} :
    wrapperCall? name s = some call ↔
      Run.Behind name none (s :: rest) .wrapped [s] (.wrapper call) := by
  have bare : ∀ modifiers label parameter body arguments,
      (wrapperCallOf modifiers label parameter body arguments).skipParens =
        wrapperCallOf modifiers label parameter body arguments := fun _ _ _ _ _ => rfl
  constructor
  · intro found
    obtain ⟨e, modifiers, label, initializer, head, members, arguments, rfl, inside, form,
      reverse⟩ := wrapperCall?_eq_some.mp found
    rw [form] at inside
    obtain ⟨count, rfl⟩ := (Node.skipParens_eq_iff (bare ..)).mp inside
    refine .wrapper count form (fun s member => setsReverse_iff.mp (reverse s member)) ?_
    rw [form]
  · intro behind
    cases behind with
    | @wrapper modifiers label initializer head members arguments _ _ count _ form reverse whole =>
      refine wrapperCall?_eq_some.mpr ⟨_, modifiers, label, initializer, head, members, arguments,
        whole, ?_, form, fun s member => setsReverse_iff.mpr (reverse s member)⟩
      rw [form]
      exact (Node.skipParens_eq_iff (bare ..)).mpr ⟨count, rfl⟩

namespace Candidate

/-- A run fits exactly if it is what the anchor asks for and something stands behind it. -/
theorem fits_iff_behind {c : Candidate} {run rest : List Node} : c.Fits run rest ↔
    c.declaration.name = .identifier c.name ∧ rest ≠ [] ∧
      Run.Behind c.name c.declaration.initializer (run ++ rest) c.shape run c.run := by
  constructor
  · intro fits
    cases fits with
    | wrapper found nonempty =>
      exact ⟨rfl, nonempty, Enum.wrapperCall?_eq_some_iff.mp found⟩
    | flat some longest nonempty =>
      exact ⟨rfl, nonempty, .flat (Enum.longest_flatRun_iff.mpr ⟨some, longest⟩)⟩
    | fixed some length longest nonempty =>
      exact ⟨rfl, nonempty, .fixed some (Enum.longest_lookupRun_iff.mpr longest) length⟩
  · obtain ⟨name, modifiers, keyword, ⟨declared, initializer⟩, behind⟩ := c
    rintro ⟨named, nonempty, follows⟩
    obtain rfl : declared = .identifier name := named
    change Run.Behind name initializer (run ++ rest) behind.shape run behind at follows
    generalize split : run ++ rest = following, behind.shape = shape at follows
    cases follows with
    | @wrapper _ _ _ _ _ _ s _ count call form reverse whole =>
      have follows : Run.Behind name none (s :: rest) .wrapped [s] (.wrapper call) :=
        .wrapper count form reverse whole
      exact .wrapper (Enum.wrapperCall?_eq_some_iff.mpr follows) nonempty
    | flat longest =>
      obtain ⟨some, longest⟩ := Enum.longest_flatRun_iff.mp longest
      exact .flat some (split ▸ longest) nonempty
    | fixed some longest length =>
      exact .fixed some length (split ▸ Enum.longest_lookupRun_iff.mp longest) nonempty

/-- Of what stands behind a run, only the next statement counts. -/
theorem Fits.congr {c : Candidate} {run rest others : List Node} (fits : c.Fits run rest)
    (next : rest.head? = others.head?) : c.Fits run others := by
  have nonempty : others ≠ [] := by
    intro none
    rw [none] at next
    exact fits.rest_ne_nil (List.head?_eq_none_iff.mp next)
  cases fits with
  | wrapper found => exact .wrapper found nonempty
  | @flat _ _ owner _ _ some longest =>
    have longest := Enum.longest_flatRun_iff.mpr ⟨some, longest⟩
    refine .flat some (Enum.flatMembers_append (Enum.flatRun_iff.mp longest.2.1) ?_) nonempty
    intro s head
    by_contra element
    have sets : Enum.SetsElement owner s := Enum.setsElement_iff.mp (by simpa using element)
    exact longest.stops s (next ▸ head) (longest.2.1.concat sets)
  | @fixed _ _ _ owner _ _ some length longest =>
    have longest := Enum.longest_lookupRun_iff.mpr longest
    refine .fixed some length (Enum.takeWhile_append_of_stops
      (fun s member => Enum.setsNameLookup_iff.mpr (longest.2.1 s member)) ?_) nonempty
    intro s head
    by_contra lookup
    have sets : Enum.SetsNameLookup owner s := Enum.setsNameLookup_iff.mp (by simpa using lookup)
    exact longest.stops s (next ▸ head) (longest.2.1.concat sets)

/-- Detection is exact and local. An enum is recognised at an index exactly if its anchor stands
there, a run of the form that the anchor's initializer asks for stands behind, and something stands
behind that; the enum has the anchor's modifiers, keyword and declaration and the statements of the
run. Wherever the same statements stand, up to the one behind the run, the same enum is
recognised. -/
theorem detection_exact (statements : List Node) (index : Nat) (c : Candidate) :
    (at? statements index = some c ↔ statements[index]? = some c.anchor ∧
      c.declaration.name = .identifier c.name ∧ index + 1 + c.run.length < statements.length ∧
      Run.Behind c.name c.declaration.initializer (statements.drop (index + 1)) c.shape
        ((statements.drop (index + 1)).take c.run.length) c.run) ∧
    (at? statements index = some c → ∀ others place,
      (statements.drop index).take (c.run.length + 2) <+: others.drop place →
        at? others place = some c) := by
  refine ⟨⟨fun found => ?_, ?_⟩, fun found others place start => ?_⟩
  · obtain ⟨run, rest, split, fits⟩ := find?_eq_some.mp found
    obtain ⟨named, nonempty, follows⟩ := fits_iff_behind.mp fits
    have behind : statements.drop (index + 1) = run ++ rest := by
      rw [← List.tail_drop, split, List.tail_cons]
    have length := congrArg List.length behind
    have := List.length_pos_iff.mpr nonempty
    rw [List.length_drop, List.length_append, fits.length_eq] at length
    refine ⟨?_, named, by omega, ?_⟩
    · rw [← List.head?_drop, split, List.head?_cons]
    · rwa [behind, ← fits.length_eq, List.take_left]
  · rintro ⟨anchored, named, short, follows⟩
    obtain ⟨inside, same⟩ := List.getElem?_eq_some_iff.mp anchored
    have split := List.take_append_drop c.run.length (statements.drop (index + 1))
    refine find?_eq_some.mpr ⟨(statements.drop (index + 1)).take c.run.length,
      (statements.drop (index + 1)).drop c.run.length, ?_, fits_iff_behind.mpr ⟨named, ?_, ?_⟩⟩
    · rw [split, List.drop_eq_getElem_cons inside, same]
    · intro none
      have := congrArg List.length none
      simp only [List.length_drop, List.length_nil] at this
      omega
    · rwa [split]
  · obtain ⟨run, rest, split, fits⟩ := find?_eq_some.mp found
    obtain ⟨next, behind, rfl⟩ := List.exists_cons_of_ne_nil fits.rest_ne_nil
    have window : statements.drop index = (c.anchor :: (run ++ [next])) ++ behind := by simp [split]
    rw [window, List.take_left' (by simp [fits.length_eq])] at start
    obtain ⟨further, same⟩ := start
    refine find?_eq_some.mpr ⟨run, next :: further, ?_, fits.congr rfl⟩
    rw [← same]
    simp

def interrupted : List Node :=
  let name := Node.identifier "E"
  let property := fun member => Node.propertyAccessExpression name member
  let set := fun target => Node.expressionStatement (.assign target (.numericLiteral "0"))
  [.emptyStatement, .declare "E" (some .emptyObject), set (property "A"),
    set (.elementAccessExpression name (property "A")), set (property "B"),
    .expressionStatement (.callExpression (.identifier "use") [name])]

/-- The same enum is recognised where only the four statements stand that count. -/
theorem detection_exact_interrupted : ∃ c, at? interrupted 1 = some c ∧ c.shape = .flatIndexed ∧
    c.run.length = 2 ∧ ((interrupted.drop 1).take 4).length = 4 ∧
    at? ((interrupted.drop 1).take 4) 0 = some c :=
  ⟨_, rfl, rfl, rfl, rfl, (detection_exact interrupted 1 _).2 rfl _ 0 (List.prefix_refl _)⟩

end Candidate
end PureEnum
