import Mathlib.Data.List.TakeWhile
import PureEnum.Enum.Segment

/-! What recognition says, in full: the exact form of each member, and of an enum its anchor, the
run behind it and the statements behind that. Every other fact about members, candidates and
segments is read off here. -/
namespace PureEnum

namespace Enum

variable {name : String} {s : Node}

theorem evaluated?_eq_some {e : Node} : s.evaluated? = some e ↔ s = .expressionStatement e := by
  cases s <;> simp [Node.evaluated?]

theorem target?_eq_some {target : Node} : target? s = some target ↔
    ∃ value, s = .expressionStatement (.binaryExpression target "=" value) := by
  simp only [target?, Option.bind_eq_bind, Option.bind_eq_some_iff, Option.pure_def,
    Option.some.injEq, Prod.exists, evaluated?_eq_some, Node.assignment?_eq_some]
  constructor
  · rintro ⟨e, rfl, _, value, rfl, rfl⟩
    exact ⟨value, rfl⟩
  · rintro ⟨value, rfl⟩
    exact ⟨_, rfl, target, value, rfl, rfl⟩

theorem keyOf?_eq_some {target key : Node} :
    keyOf? name target = some key ↔ target = .elementAccessExpression (.identifier name) key := by
  cases target <;> simp [keyOf?]

theorem isPropertyOf_iff {target : Node} : isPropertyOf name target ↔
    ∃ member, target = .propertyAccessExpression (.identifier name) member := by
  cases target <;> simp [isPropertyOf]

theorem setsProperty_iff : setsProperty name s ↔ ∃ member value, s = .expressionStatement
    (.binaryExpression (.propertyAccessExpression (.identifier name) member) "=" value) := by
  simp only [setsProperty, Option.any_eq_true, target?_eq_some, isPropertyOf_iff]
  constructor
  · rintro ⟨_, ⟨value, rfl⟩, member, rfl⟩
    exact ⟨member, value, rfl⟩
  · rintro ⟨member, value, rfl⟩
    exact ⟨_, ⟨value, rfl⟩, member, rfl⟩

theorem setsElement_iff : setsElement name s ↔ ∃ key value, s = .expressionStatement
    (.binaryExpression (.elementAccessExpression (.identifier name) key) "=" value) := by
  simp only [setsElement, Option.isSome_iff_exists, Option.bind_eq_some_iff, target?_eq_some,
    keyOf?_eq_some]
  constructor
  · rintro ⟨key, _, ⟨value, rfl⟩, rfl⟩
    exact ⟨key, value, rfl⟩
  · rintro ⟨key, value, rfl⟩
    exact ⟨key, _, ⟨value, rfl⟩, rfl⟩

theorem setsNameLookup_iff : setsNameLookup name s ↔ ∃ member value, s = .expressionStatement
    (.binaryExpression (.elementAccessExpression (.identifier name)
      (.propertyAccessExpression (.identifier name) member)) "=" value) := by
  simp only [setsNameLookup, Option.any_eq_true, Option.bind_eq_some_iff, target?_eq_some,
    keyOf?_eq_some, isPropertyOf_iff]
  constructor
  · rintro ⟨_, ⟨_, ⟨value, rfl⟩, rfl⟩, member, rfl⟩
    exact ⟨member, value, rfl⟩
  · rintro ⟨member, value, rfl⟩
    exact ⟨_, ⟨_, ⟨value, rfl⟩, rfl⟩, member, rfl⟩

theorem setsReverse_iff : setsReverse name s ↔ ∃ key inner value, s = .expressionStatement
    (.binaryExpression (.elementAccessExpression (.identifier name)
      (.binaryExpression (.elementAccessExpression (.identifier name) key) "=" inner))
      "=" value) := by
  simp only [setsReverse, Option.any_eq_true, Option.isSome_iff_exists, Option.bind_eq_some_iff,
    Prod.exists, target?_eq_some, keyOf?_eq_some, Node.assignment?_eq_some]
  constructor
  · rintro ⟨_, ⟨_, ⟨value, rfl⟩, rfl⟩, key, _, inner, rfl, rfl⟩
    exact ⟨key, inner, value, rfl⟩
  · rintro ⟨key, inner, value, rfl⟩
    exact ⟨_, ⟨_, ⟨value, rfl⟩, rfl⟩, key, _, inner, rfl, rfl⟩

/-- What is called by a wrapper: a function of one parameter over any scope of members. -/
def wrapperCallOf (modifiers : Modifiers) (label : Option String) (parameter : Parameter Node)
    (body : Node) (arguments : List Node) : Node :=
  .callExpression (.parenthesizedExpression
    (.functionExpression modifiers label [parameter] body)) arguments

theorem wrapperCall?_eq_some {call : Node} : wrapperCall? name s = some call ↔
    ∃ e modifiers label initializer head statements arguments,
      s = .expressionStatement e ∧ e.skipParens = call ∧
      call = wrapperCallOf modifiers label ⟨.identifier name, initializer, false⟩
        (.scope head statements) arguments ∧
      ∀ member ∈ statements, setsReverse name member := by
  simp only [wrapperCall?, Option.bind_eq_bind, Option.bind_eq_some_iff, evaluated?_eq_some]
  constructor
  · rintro ⟨e, rfl, h⟩
    split at h
    case h_1 modifiers label parameter body arguments form =>
      obtain ⟨statements, body?, decided⟩ := Option.bind_eq_some_iff.mp h
      split at decided
      case isTrue holds =>
        obtain ⟨parameterName, initializer, rest⟩ := parameter
        simp only [Bool.and_eq_true, Bool.not_eq_eq_eq_not, Bool.not_true, Node.isNamed_iff,
          List.all_eq_true] at holds
        obtain ⟨⟨rfl, rfl⟩, members⟩ := holds
        obtain ⟨head, rfl⟩ := Node.statements?_eq_some.mp body?
        exact ⟨e, modifiers, label, initializer, head, statements, arguments, rfl,
          Option.some.inj decided, (Option.some.inj decided).symm.trans form, members⟩
      case isFalse => contradiction
    case h_2 => contradiction
  · rintro ⟨e, modifiers, label, initializer, head, statements, arguments, rfl, inside, form,
      members⟩
    refine ⟨e, rfl, ?_⟩
    rw [inside, form]
    simpa [wrapperCallOf] using members

/-- A wrapper recognised over a scope has members in it, and the name for its parameter. -/
theorem wrapperCall?_scope {modifiers : Modifiers} {label : Option String}
    {parameter : Parameter Node} {head : ScopeHead Node} {members arguments : List Node}
    (wrapped : wrapperCall? name s =
      some (wrapperCallOf modifiers label parameter (.scope head members) arguments)) :
    (∃ initializer, parameter = ⟨.identifier name, initializer, false⟩) ∧
      ∀ member ∈ members, setsReverse name member := by
  obtain ⟨_, _, _, initializer, _, _, _, -, -, form, reverse⟩ := wrapperCall?_eq_some.mp wrapped
  simp only [wrapperCallOf, Node.callExpression.injEq, Node.parenthesizedExpression.injEq,
    Node.functionExpression.injEq, Node.scope.injEq, List.cons.injEq, and_true] at form
  obtain ⟨⟨-, -, rfl, -, rfl⟩, -⟩ := form
  exact ⟨⟨initializer, rfl⟩, reverse⟩

theorem setsElement_of_setsNameLookup (sets : setsNameLookup name s) : setsElement name s := by
  obtain ⟨member, value, rfl⟩ := setsNameLookup_iff.mp sets
  exact setsElement_iff.mpr ⟨_, _, rfl⟩

theorem sets_of_mem_flatMembers {statements : List Node} (h : s ∈ flatMembers name statements) :
    setsProperty name s ∨ setsElement name s := by
  simp only [flatMembers_eq] at h
  split at h
  · exact absurd h List.not_mem_nil
  · exact (List.mem_append.mp h).imp List.mem_takeWhile_imp List.mem_takeWhile_imp

/-- Every statement of a run evaluates something. -/
theorem evaluates_of_mem_flatMembers {statements : List Node}
    (h : s ∈ flatMembers name statements) : ∃ e, s = .expressionStatement e := by
  rcases sets_of_mem_flatMembers h with sets | sets
  · obtain ⟨_, _, rfl⟩ := setsProperty_iff.mp sets
    exact ⟨_, rfl⟩
  · obtain ⟨_, _, rfl⟩ := setsElement_iff.mp sets
    exact ⟨_, rfl⟩

theorem evaluates_of_mem_fixedMembers {statements : List Node}
    (h : s ∈ fixedMembers name statements) : ∃ e, s = .expressionStatement e := by
  obtain ⟨_, _, rfl⟩ := setsNameLookup_iff.mp (List.mem_takeWhile_imp h)
  exact ⟨_, rfl⟩

theorem flatMembers_prefix (name : String) (statements : List Node) :
    flatMembers name statements <+: statements := by
  simp only [flatMembers_eq]
  split
  · exact List.nil_prefix
  · refine ⟨((statements.dropWhile (setsProperty name)).dropWhile (setsElement name)), ?_⟩
    rw [List.append_assoc, List.takeWhile_append_dropWhile, List.takeWhile_append_dropWhile]

theorem fixedMembers_prefix (name : String) (statements : List Node) :
    fixedMembers name statements <+: statements := List.takeWhile_prefix _

end Enum

namespace Candidate

def anchor (c : Candidate) : Node := .variableStatement c.modifiers c.keyword [c.declaration]

inductive Fits : Candidate → (run rest : List Node) → Prop where
  | wrapper {owner : String} {modifiers : Modifiers} {keyword : Keyword} {s : Node} :
      Enum.wrapperCall? owner s = some call → rest ≠ [] →
      Fits ⟨owner, modifiers, keyword, ⟨.identifier owner, none⟩, .wrapper call⟩ [s] rest
  | flat {owner : String} {modifiers : Modifiers} {keyword : Keyword} :
      members ≠ [] → Enum.flatMembers owner (members ++ rest) = members → rest ≠ [] →
      Fits ⟨owner, modifiers, keyword, ⟨.identifier owner, some (.objectLiteralExpression [])⟩,
        .flat members⟩ members rest
  | fixed {owner : String} {modifiers : Modifiers} {keyword : Keyword} :
      properties ≠ [] → members.length = properties.length →
      Enum.fixedMembers owner (members ++ rest) = members → rest ≠ [] →
      Fits ⟨owner, modifiers, keyword, ⟨.identifier owner,
        some (.objectLiteralExpression properties)⟩, .fixed members⟩ members rest

theorem Fits.length_eq {c : Candidate} {run rest : List Node} (fits : c.Fits run rest) :
    run.length = c.run.length := by
  cases fits <;> rfl

theorem Fits.rest_ne_nil {c : Candidate} {run rest : List Node} (fits : c.Fits run rest) :
    rest ≠ [] := by
  cases fits <;> assumption

theorem Fits.run_ne_nil {c : Candidate} {run rest : List Node} (fits : c.Fits run rest) :
    run ≠ [] := by
  cases fits with
  | wrapper => exact List.cons_ne_nil _ _
  | flat nonempty => exact nonempty
  | fixed nonempty length =>
    rintro rfl
    exact nonempty (List.length_eq_zero_iff.mp length.symm)

theorem Fits.evaluates {c : Candidate} {run rest : List Node} (fits : c.Fits run rest) :
    ∀ s ∈ run, ∃ e, s = .expressionStatement e := by
  intro s member
  cases fits with
  | wrapper found =>
    obtain ⟨e, _, _, _, _, _, _, rfl, _⟩ := Enum.wrapperCall?_eq_some.mp found
    exact ⟨e, List.mem_singleton.mp member⟩
  | flat _ longest => exact Enum.evaluates_of_mem_flatMembers (longest ▸ member)
  | fixed _ _ longest => exact Enum.evaluates_of_mem_fixedMembers (longest ▸ member)

theorem fits_of_find? {owner : String} {modifiers : Modifiers} {keyword : Keyword}
    {initializer : Option Node} {following : List Node} {behind : Run Node}
    (found : Run.find? owner initializer following = some behind)
    (short : behind.length < following.length) :
    ∃ run rest, following = run ++ rest ∧
      Fits ⟨owner, modifiers, keyword, ⟨.identifier owner, initializer⟩, behind⟩ run rest := by
  unfold Run.find? at found
  cases initializer with
  | none =>
    simp only [Option.bind_eq_bind, Option.bind_eq_some_iff, Option.pure_def,
      Option.some.injEq] at found
    obtain ⟨s, first, call, wrapped, rfl⟩ := found
    obtain ⟨rest, rfl⟩ : ∃ rest, following = s :: rest := by
      cases following <;> simp_all
    refine ⟨[s], rest, rfl, .wrapper wrapped ?_⟩
    rintro rfl
    simp [Run.length] at short
  | some literal =>
    simp only [Option.bind_eq_bind, Option.bind_eq_some_iff] at found
    obtain ⟨properties, object, found⟩ := found
    obtain rfl : literal = .objectLiteralExpression properties := by
      cases literal <;> simp_all [Node.properties?]
    split at found
    case isTrue empty =>
      obtain rfl := List.isEmpty_iff.mp empty
      split at found
      case isTrue => contradiction
      case isFalse nonempty =>
        obtain rfl := Option.some.inj found
        obtain ⟨rest, split⟩ := Enum.flatMembers_prefix owner following
        refine ⟨_, rest, split.symm, .flat (by simpa using nonempty) (by rw [split]) ?_⟩
        rintro rfl
        have := congrArg List.length split
        simp [Run.length] at short this
        omega
    case isFalse nonempty =>
      split at found
      case isFalse => contradiction
      case isTrue length =>
        obtain rfl := Option.some.inj found
        obtain ⟨rest, split⟩ := Enum.fixedMembers_prefix owner following
        refine ⟨_, rest, split.symm,
          .fixed (by simpa using nonempty) length (by rw [split]) ?_⟩
        rintro rfl
        have := congrArg List.length split
        simp [Run.length] at short this
        omega

/-- What is recognised is exactly an anchor with a run that fits. -/
theorem find?_eq_some {statements : List Node} {c : Candidate} : find? statements = some c ↔
    ∃ run rest, statements = c.anchor :: (run ++ rest) ∧ c.Fits run rest := by
  constructor
  · intro h
    unfold find? at h
    split at h
    case h_2 => contradiction
    case h_1 modifiers keyword declaration following =>
      simp only [Option.bind_eq_bind, Option.bind_eq_some_iff] at h
      obtain ⟨owner, named, behind, found, h⟩ := h
      split at h
      case isFalse => contradiction
      case isTrue short =>
        obtain rfl := Option.some.inj h
        obtain ⟨declared, initializer⟩ := declaration
        obtain rfl : declared = .identifier owner := by
          cases declared <;> simp_all [Node.identifier?]
        obtain ⟨run, rest, rfl, fits⟩ := fits_of_find? found short
        exact ⟨run, rest, rfl, fits⟩
  · rintro ⟨run, rest, rfl, fits⟩
    have short : c.run.length < (run ++ rest).length := by
      have := List.length_pos_iff.mpr fits.rest_ne_nil
      rw [List.length_append, fits.length_eq]
      omega
    cases fits with
    | wrapper found => simp_all [find?, anchor, Node.identifier?, Run.find?]
    | flat nonempty longest =>
      simp_all [find?, anchor, Node.identifier?, Run.find?, Node.properties?]
    | fixed nonempty length longest =>
      simp_all [find?, anchor, Node.identifier?, Run.find?, Node.properties?]

/-- An anchor is a variable statement; nothing else starts an enum. -/
theorem find?_of_evaluated {e : Node} {following : List Node} :
    find? (.expressionStatement e :: following) = none := rfl

theorem find?_of_isImport {s : Node} {following : List Node} (imports : s.isImport) :
    find? (s :: following) = none := by
  cases s with
  | importDeclaration => rfl
  | _ => contradiction

theorem isImport_anchor (c : Candidate) : c.anchor.isImport = false := rfl

end Candidate

/-- A statement list cut into segments. The run of an enum stands in front of what follows it. -/
inductive Segmented : List Node → List Segment → Prop where
  | nil : Segmented [] []
  | pinned (s : Node) : s.isImport → Segmented statements segments →
      Segmented (s :: statements) (.pinned s :: segments)
  | enum (c : Candidate) : c.Fits run rest → Segmented rest segments →
      Segmented (c.anchor :: (run ++ rest)) (.enum c.anchor c :: segments)
  | plain (s : Node) : s.isImport = false → Candidate.find? (s :: statements) = none →
      Segmented statements segments → Segmented (s :: statements) (.plain s :: segments)

namespace Segment

/-- Skipped statements are not looked at. -/
theorem ofListFrom_eq_drop (skip : Nat) (statements : List Node) :
    ofListFrom skip statements = ofList (statements.drop skip) := by
  induction statements generalizing skip with
  | nil => cases skip <;> rfl
  | cons s statements ih =>
    cases skip with
    | zero => rfl
    | succ skip => exact ih skip

theorem ofList_import {s : Node} {statements : List Node} (imports : s.isImport) :
    ofList (s :: statements) = pinned s :: ofList statements := by
  rw [ofList, ofListFrom, if_pos imports, ofListFrom_eq_drop, List.drop_zero]

theorem ofList_enum {c : Candidate} {run rest : List Node} (fits : c.Fits run rest) :
    ofList (c.anchor :: (run ++ rest)) = enum c.anchor c :: ofList rest := by
  have found : Candidate.find? (c.anchor :: (run ++ rest)) = some c :=
    Candidate.find?_eq_some.mpr ⟨run, rest, rfl, fits⟩
  rw [ofList, ofListFrom, if_neg (by simp [Candidate.isImport_anchor]), found]
  simp only [ofListFrom_eq_drop, ← fits.length_eq, List.drop_left]

theorem ofList_plain {s : Node} {statements : List Node} (other : s.isImport = false)
    (none : Candidate.find? (s :: statements) = .none) :
    ofList (s :: statements) = plain s :: ofList statements := by
  rw [ofList, ofListFrom, if_neg (by simp [other]), none]
  simp only [ofListFrom_eq_drop, List.drop_zero]

theorem segmented_ofList (statements : List Node) : Segmented statements (ofList statements) := by
  cases statements with
  | nil => exact .nil
  | cons s statements =>
    by_cases imports : s.isImport
    · rw [ofList_import imports]
      exact .pinned s imports (segmented_ofList statements)
    have other : s.isImport = false := by simpa using imports
    cases found : Candidate.find? (s :: statements) with
    | none =>
      rw [ofList_plain other found]
      exact .plain s other found (segmented_ofList statements)
    | some c =>
      obtain ⟨run, rest, split, fits⟩ := Candidate.find?_eq_some.mp found
      have shorter : rest.length < (s :: statements).length := by
        rw [split, List.length_cons, List.length_append]
        omega
      rw [split, ofList_enum fits]
      exact .enum c fits (segmented_ofList rest)
termination_by statements.length
decreasing_by
  · exact Nat.lt_succ_self _
  · exact Nat.lt_succ_self _
  · exact shorter

end Segment

/-- There is only one way to cut a list. -/
theorem Segmented.eq_ofList {statements : List Node} {segments : List Segment}
    (cut : Segmented statements segments) : segments = Segment.ofList statements := by
  induction cut with
  | nil => rfl
  | pinned _ imports _ ih => rw [Segment.ofList_import imports, ← ih]
  | enum _ fits _ ih => rw [Segment.ofList_enum fits, ← ih]
  | plain _ other none _ ih => rw [Segment.ofList_plain other none, ← ih]

/-- Every enum at which a list is cut has its run there. -/
theorem Segmented.fits_of_mem {statements : List Node} {segments : List Segment}
    (cut : Segmented statements segments) {anchor : Node} {c : Candidate}
    (member : .enum anchor c ∈ segments) : ∃ run rest, c.Fits run rest := by
  induction cut with
  | nil => contradiction
  | pinned _ _ _ ih | plain _ _ _ _ ih => exact ih (by simpa using member)
  | enum c fits _ ih =>
    rcases List.mem_cons.mp member with same | member
    · obtain ⟨-, rfl⟩ := Segment.enum.inj same
      exact ⟨_, _, fits⟩
    · exact ih member

end PureEnum
