import Mathlib.Data.List.Forall2
import PureEnum.Log.Directives

/-! Filters are expanded directive by directive. A directive keeps its place, its comma and, where
it names a pass, its level; and what stands for it then is a directive that nobody trims, drops or
expands again. So the expansion of two filters with a comma between them is that of each of them,
and an expanded filter is its own expansion. -/
namespace PureEnum

namespace Text

structure Trims (s t : List Char) : Prop where
  around : ∃ front back, s = front ++ t ++ back ∧ front.all isBlank ∧ back.all isBlank
  starts : ∀ c ∈ t.head?, isBlank c = false
  ends : ∀ c ∈ t.getLast?, isBlank c = false

theorem head?_trimStart (s : List Char) : ∀ c ∈ (trimStart s).head?, isBlank c = false := by
  intro c first
  have known := List.head?_dropWhile_not isBlank s
  rw [trimStart] at first
  rw [Option.mem_def.mp first] at known
  exact known

theorem exists_trimStart (s : List Char) : ∃ front, s = front ++ trimStart s ∧ front.all isBlank :=
  ⟨s.takeWhile isBlank, List.takeWhile_append_dropWhile.symm, List.all_takeWhile⟩

theorem trims_trim (s : List Char) : Trims s (trim s) := by
  obtain ⟨front, start, before⟩ := exists_trimStart s
  obtain ⟨back, ending, behind⟩ := exists_trimStart (trimStart s).reverse
  have left : trimStart s = trim s ++ back.reverse := by
    have turned := congrArg List.reverse ending
    rwa [List.reverse_reverse, List.reverse_append] at turned
  refine ⟨⟨front, back.reverse, ?_, before, List.all_reverse.trans behind⟩, ?_, ?_⟩
  · rw [List.append_assoc, ← left]
    exact start
  · intro c first
    refine head?_trimStart s c ?_
    rw [left, List.head?_append, Option.mem_def.mp first]
    rfl
  · intro c last
    rw [trim, List.getLast?_reverse] at last
    exact head?_trimStart _ c last

theorem Trims.trim_eq {s t : List Char} (trims : Trims s t) : trim s = t := by
  have keeps (u : List Char) (starts : ∀ c ∈ u.head?, isBlank c = false) : trimStart u = u := by
    cases u with
    | nil => rfl
    | cons c u => exact List.dropWhile_cons_of_neg (by simp [starts c rfl])
  obtain ⟨front, back, rfl, before, behind⟩ := trims.around
  rw [trim_pad (List.all_eq_true.mp before) (List.all_eq_true.mp behind), trim,
    keeps t trims.starts, keeps t.reverse (by simpa using trims.ends), List.reverse_reverse]

theorem Trims.self {s t : List Char} (trims : Trims s t) : Trims t t :=
  ⟨⟨[], [], by simp, rfl, rfl⟩, trims.starts, trims.ends⟩

/-- Nothing is left of a blank text, and of no other text. -/
theorem trim_eq_nil_iff (s : List Char) : trim s = [] ↔ s.all isBlank := by
  constructor
  · intro nothing
    obtain ⟨front, back, same, before, behind⟩ := (trims_trim s).around
    rw [same, nothing]
    simp [before, behind]
  · intro blank
    have none : trim (s ++ [] ++ []) = [] :=
      trim_pad (List.all_eq_true.mp blank) (List.forall_mem_nil _) []
    simpa using none

end Text

namespace Log

open Text

/-- What stands for a directive. The name of a pass stands for its module, and the level behind
the first equals sign is kept as it is. -/
inductive StandsFor : (directive expanded : List Char) → Prop where
  | bare {pass path} : (pass, path) ∈ passes → StandsFor pass (path ++ "=debug".toList)
  | leveled {pass path level} : (pass, path) ∈ passes →
      StandsFor (pass ++ '=' :: level) (path ++ '=' :: level)
  | other {directive} : (∀ entry ∈ passes, directive ≠ entry.1 ∧
      ¬ (entry.1 ++ ['=']) <+: directive) → StandsFor directive directive

/-- Counts as one directive, which has no blanks around it. -/
structure Directive (d : List Char) : Prop where
  filled : d ≠ []
  whole : ',' ∉ d
  trimmed : Trims d d

/-- The expansion of a filter has one directive for each piece that is not blank, in order. -/
def Expansion (filter expanded : List Char) : Prop := ∃ pieces directives : List (List Char),
  filter = [','].intercalate pieces ∧ pieces ≠ [] ∧ (∀ piece ∈ pieces, ',' ∉ piece) ∧
  expanded = [','].intercalate directives ∧ (∀ d ∈ directives, Directive d) ∧
  List.Forall₂ (fun piece d => ∃ directive, Trims piece directive ∧ StandsFor directive d)
    (pieces.filter fun piece => !piece.all isBlank) directives

/-! ### The table of passes -/

/-- Names and modules have no sign in them, each pass has one module, and no pass is named like a
module. -/
theorem passes_apart : ∀ entry ∈ passes, '=' ∉ entry.1 ∧ '=' ∉ entry.2 ∧ ',' ∉ entry.2 ∧
    module? entry.1 = some entry.2 ∧ module? entry.2 = none ∧
    entry.2.head?.any fun c => !isBlank c := by
  decide

theorem mem_passes_of_module? {pass path : List Char} (found : module? pass = some path) :
    (pass, path) ∈ passes := by
  obtain ⟨before, behind, table, -⟩ := List.lookup_eq_some_iff.mp found
  rw [table]
  simp

/-! ### Directives -/

/-- A target ends at the first sign, or with the directive. -/
theorem cut_target {target r : List Char} (plain : '=' ∉ target)
    (stops : ∀ c ∈ r.head?, c = '=') : (target ++ r).takeWhile (· != '=') = target ∧
      (target ++ r).dropWhile (· != '=') = r := by
  have all : ∀ c ∈ target, (c != '=') = true := by
    rintro c member
    exact bne_iff_ne.mpr (ne_of_mem_of_not_mem member plain)
  rw [List.takeWhile_append_of_pos all, List.dropWhile_append_of_pos all]
  cases r with
  | nil => simp
  | cons c r => simp [stops c rfl]

/-- A directive is its target, or its target and its level with a sign between them. -/
theorem target_cases (directive : List Char) :
    directive.takeWhile (· != '=') = directive ∧ directive.dropWhile (· != '=') = [] ∨
      ∃ level, directive = directive.takeWhile (· != '=') ++ '=' :: level ∧
        directive.dropWhile (· != '=') = '=' :: level := by
  have parts := List.takeWhile_append_dropWhile (p := (· != '=')) (l := directive)
  have sign := List.head?_dropWhile_not (· != '=') directive
  cases rest : directive.dropWhile (· != '=') with
  | nil =>
    rw [rest, List.append_nil] at parts
    exact .inl ⟨parts, rfl⟩
  | cons c level =>
    rw [rest] at parts sign
    obtain rfl : c = '=' := by simpa using sign
    exact .inr ⟨level, parts.symm, rfl⟩

theorem standsFor_expandDirective (directive : List Char) :
    StandsFor directive (expandDirective directive) := by
  rw [expandDirective]
  cases found : module? (directive.takeWhile (· != '=')) with
  | some path =>
    have pass := mem_passes_of_module? found
    rcases target_cases directive with ⟨target, rest⟩ | ⟨level, split, rest⟩
    · simp only [rest]
      rw [target] at pass
      exact .bare pass
    · simp only [rest]
      have leveled : StandsFor (directive.takeWhile (· != '=') ++ '=' :: level)
          (path ++ '=' :: level) := .leveled pass
      rwa [← split] at leveled
  | none =>
    refine .other fun entry pass => ?_
    obtain ⟨plain, -, -, named, -⟩ := passes_apart entry pass
    -- either form of the directive would have the pass for its target
    have apart (target : directive.takeWhile (· != '=') = entry.1) : False := by
      rw [target, named] at found
      contradiction
    constructor
    · rintro rfl
      have whole := cut_target (r := []) plain (by simp)
      exact apart (by simpa using whole.1)
    · rintro ⟨level, rfl⟩
      refine apart ?_
      rw [List.append_assoc]
      exact (cut_target plain (by simp)).1

/-- A directive is expanded in one way. -/
theorem StandsFor.expandDirective_eq {directive expanded : List Char}
    (stands : StandsFor directive expanded) : expandDirective directive = expanded := by
  cases stands with
  | bare entry =>
    obtain ⟨plain, -, -, named, -⟩ := passes_apart _ entry
    obtain ⟨target, rest⟩ := cut_target (r := []) plain (by simp)
    rw [List.append_nil] at target rest
    simp only [expandDirective, target, rest, named]
    rfl
  | @leveled pass path level entry =>
    obtain ⟨plain, -, -, named, -⟩ := passes_apart _ entry
    obtain ⟨target, rest⟩ := cut_target (r := '=' :: level) plain (by simp)
    simp only [expandDirective, target, rest, named]
  | other apart =>
    rw [expandDirective]
    cases found : module? (directive.takeWhile (· != '=')) with
    | none => rfl
    | some path =>
      obtain ⟨bare, leveled⟩ := apart _ (mem_passes_of_module? found)
      rcases target_cases directive with ⟨target, -⟩ | ⟨level, split, -⟩
      · exact absurd target.symm bare
      · refine absurd ⟨level, ?_⟩ leveled
        rw [List.append_assoc]
        exact split.symm

/-- A module with a level is a directive that is not expanded. -/
theorem expandDirective_leveled {pass path : List Char} (entry : (pass, path) ∈ passes)
    (level : List Char) : expandDirective (path ++ '=' :: level) = path ++ '=' :: level := by
  obtain ⟨-, plain, -, -, unnamed, -⟩ := passes_apart _ entry
  obtain ⟨target, -⟩ := cut_target (r := '=' :: level) plain (by simp)
  simp only [expandDirective, target, unnamed]

theorem expandDirective_expandDirective (directive : List Char) :
    expandDirective (expandDirective directive) = expandDirective directive := by
  have stands := standsFor_expandDirective directive
  generalize same : expandDirective directive = expanded at stands ⊢
  cases stands with
  | bare entry => exact expandDirective_leveled entry defaultLevel
  | leveled entry => exact expandDirective_leveled entry _
  | other => exact same

/-- A module takes the place of a name in front of a level. -/
theorem directive_leveled {pass path level : List Char} (entry : (pass, path) ∈ passes)
    (whole : ',' ∉ level) (ends : ∀ c ∈ ('=' :: level).getLast?, isBlank c = false) :
    Directive (path ++ '=' :: level) := by
  obtain ⟨-, -, plain, -, -, first⟩ := passes_apart _ entry
  refine ⟨by simp, by simp [plain, whole], ⟨[], [], by simp, rfl, rfl⟩, ?_, ?_⟩
  · cases path with
    | nil => contradiction
    | cons c path => simpa using first
  · rw [List.getLast?_append_of_ne_nil _ (List.cons_ne_nil _ _)]
    exact ends

theorem StandsFor.directive {directive expanded : List Char}
    (stands : StandsFor directive expanded) (proper : Directive directive) :
    Directive expanded := by
  cases stands with
  | bare entry =>
    refine directive_leveled entry (by decide : ',' ∉ defaultLevel) ?_
    rintro _ ⟨⟩
    decide
  | @leveled pass path level entry =>
    have ends := proper.trimmed.ends
    rw [List.getLast?_append_of_ne_nil _ (List.cons_ne_nil _ _)] at ends
    refine directive_leveled entry (fun comma => proper.whole ?_) ends
    simp [comma]
  | other => exact proper

/-! ### Filters -/

theorem comma_notMem (s : List Char) : ∀ piece ∈ s.splitOn ',', ',' ∉ piece := by
  induction s with
  | nil => simp
  | cons c s ih =>
    obtain ⟨first, pieces, rest⟩ := List.exists_cons_of_ne_nil (List.splitOn_ne_nil ',' s)
    rw [List.splitOn_cons_eq_if_modifyHead]
    split
    case isTrue => exact List.forall_mem_cons.mpr ⟨List.not_mem_nil, ih⟩
    case isFalse other =>
      rw [rest] at ih ⊢
      obtain ⟨here, behind⟩ := List.forall_mem_cons.mp ih
      refine List.forall_mem_cons.mpr ⟨fun comma => ?_, behind⟩
      rcases List.mem_cons.mp comma with rfl | inside
      · exact other (beq_self_eq_true _)
      · exact here inside

theorem directive_of_mem_directives {s d : List Char} (member : d ∈ directives s) :
    Directive d := by
  obtain ⟨inside, filled⟩ := List.mem_filter.mp member
  obtain ⟨piece, cut, rfl⟩ := List.mem_map.mp inside
  have trims := trims_trim piece
  obtain ⟨front, back, same, -⟩ := trims.around
  refine ⟨by simpa using filled, fun comma => ?_, trims.self⟩
  refine comma_notMem s piece cut ?_
  rw [same]
  simp [comma]

/-- Directives with commas between them are these directives. -/
theorem directives_intercalate {ds : List (List Char)} (proper : ∀ d ∈ ds, Directive d) :
    directives ([','].intercalate ds) = ds := by
  cases ds with
  | nil => rfl
  | cons d ds =>
    rw [directives, List.splitOn_intercalate ',' (fun d member => (proper d member).whole)
      (List.cons_ne_nil d ds),
      List.map_congr_left fun d member => (proper d member).trimmed.trim_eq, List.map_id',
      List.filter_eq_self.mpr fun d member => by simpa using (proper d member).filled]

theorem directives_append (a b : List Char) :
    directives (a ++ ',' :: b) = directives a ++ directives b := by
  rw [directives, List.splitOn_append_cons_self, List.map_append, List.filter_append]
  rfl

/-- What is left of the pieces that are not blank. -/
theorem directives_eq (s : List Char) :
    directives s = ((s.splitOn ',').filter fun piece => !piece.all isBlank).map trim := by
  rw [directives, List.filter_map]
  congr 1
  refine List.filter_congr fun piece _ => ?_
  have blank := trim_eq_nil_iff piece
  by_cases nothing : trim piece = []
  · simp [nothing, blank.mp nothing]
  · simp [nothing, mt blank.mpr nothing]

theorem directive_of_mem_expanded {s d : List Char}
    (member : d ∈ (directives s).map expandDirective) : Directive d := by
  obtain ⟨directive, inside, rfl⟩ := List.mem_map.mp member
  exact (standsFor_expandDirective directive).directive (directive_of_mem_directives inside)

theorem expansion_expandChars (s : List Char) : Expansion s (expandChars s) := by
  refine ⟨s.splitOn ',', (directives s).map expandDirective, (List.intercalate_splitOn ',').symm,
    List.splitOn_ne_nil ',' s, comma_notMem s, rfl,
    fun d member => directive_of_mem_expanded member, ?_⟩
  rw [directives_eq, List.map_map, List.forall₂_map_right_iff, List.forall₂_same]
  exact fun piece _ => ⟨trim piece, trims_trim piece, standsFor_expandDirective _⟩

/-- A filter has one expansion. -/
theorem Expansion.eq_expandChars {s t : List Char} (expansion : Expansion s t) :
    t = expandChars s := by
  obtain ⟨pieces, ds, rfl, some, whole, rfl, -, each⟩ := expansion
  rw [expandChars, directives_eq, List.splitOn_intercalate ',' whole some, List.map_map]
  congr 1
  have same : ∀ piece d, (∃ directive, Trims piece directive ∧ StandsFor directive d) →
      (expandDirective ∘ trim) piece = d := by
    rintro piece d ⟨directive, trims, stands⟩
    rw [Function.comp_apply, trims.trim_eq, stands.expandDirective_eq]
  have equal := List.forall₂_map_left_iff.mpr (each.imp same)
  rw [List.forall₂_eq_eq_eq] at equal
  exact equal.symm

/-- An expanded filter consists of the expanded directives. -/
theorem directives_expandChars (s : List Char) :
    directives (expandChars s) = (directives s).map expandDirective :=
  directives_intercalate fun _ member => directive_of_mem_expanded member

theorem expandChars_expandChars (s : List Char) : expandChars (expandChars s) = expandChars s := by
  rw [expandChars, directives_expandChars, List.map_map, expandChars]
  congr 1
  exact List.map_congr_left fun directive _ => expandDirective_expandDirective directive

def joined (a b : String) : String := if a = "" then b else if b = "" then a else a ++ "," ++ b

theorem intercalate_eq_nil_iff {ds : List (List Char)} (filled : ∀ d ∈ ds, d ≠ []) :
    [','].intercalate ds = [] ↔ ds = [] := by
  cases ds with
  | nil => simp
  | cons d ds =>
    have first := filled d List.mem_cons_self
    cases ds <;> simp [List.intercalate_cons_cons, first]

theorem intercalate_append {ds es : List (List Char)} (left : ds ≠ []) (right : es ≠ []) :
    [','].intercalate (ds ++ es) = [','].intercalate ds ++ ',' :: [','].intercalate es := by
  induction ds with
  | nil => contradiction
  | cons d ds ih =>
    cases ds with
    | nil => simp [List.intercalate_cons_of_ne_nil right]
    | cons next ds =>
      have rest := ih (List.cons_ne_nil _ _)
      rw [List.cons_append, List.cons_append, List.intercalate_cons_cons, ← List.cons_append, rest]
      simp [List.intercalate_cons_cons]

theorem toList_expand (s : String) :
    (expand s).toList = [','].intercalate ((directives s.toList).map expandDirective) :=
  String.toList_ofList

/-- Nothing is expanded from a filter without directives only. -/
theorem expand_eq_empty_iff (s : String) : expand s = "" ↔ directives s.toList = [] := by
  have filled : ∀ d ∈ (directives s.toList).map expandDirective, d ≠ [] :=
    fun d member => (directive_of_mem_expanded member).filled
  rw [← String.toList_inj, toList_expand]
  simpa using intercalate_eq_nil_iff filled

theorem expand_append (a b : String) : expand (a ++ "," ++ b) = joined (expand a) (expand b) := by
  have split : directives (a ++ "," ++ b).toList = directives a.toList ++ directives b.toList := by
    rw [← directives_append]
    simp
  rw [joined]
  by_cases left : directives a.toList = []
  · rw [if_pos ((expand_eq_empty_iff a).mpr left), ← String.toList_inj, toList_expand,
      toList_expand, split, left, List.nil_append]
  · rw [if_neg (mt (expand_eq_empty_iff a).mp left)]
    by_cases right : directives b.toList = []
    · rw [if_pos ((expand_eq_empty_iff b).mpr right), ← String.toList_inj, toList_expand,
        toList_expand, split, right, List.append_nil]
    · rw [if_neg (mt (expand_eq_empty_iff b).mp right), ← String.toList_inj, String.toList_append,
        String.toList_append, toList_expand, toList_expand, toList_expand, split, List.map_append,
        intercalate_append (by simpa using left) (by simpa using right)]
      simp

/-- Expansion works directive by directive. Two filters with a comma between them are expanded one
by one; each piece that is not blank gives one directive, in its place, and no other piece does,
which tells the whole result; and an expanded filter is its own expansion. -/
theorem expand_by_directive :
    (∀ a b : String, expand (a ++ "," ++ b) = joined (expand a) (expand b)) ∧
    (∀ s t : String, t = expand s ↔ Expansion s.toList t.toList) ∧
    ∀ s : String, expand (expand s) = expand s := by
  refine ⟨expand_append, fun s t => ⟨?_, fun expansion => ?_⟩, fun s => ?_⟩
  · rintro rfl
    rw [expand, String.toList_ofList]
    exact expansion_expandChars s.toList
  · rw [expand, ← expansion.eq_expandChars, String.ofList_toList]
  · rw [expand, expand, String.toList_ofList, expandChars_expandChars]

example : expand " warn ,,wrap_enums= a=b, wrap_enums " =
    "warn,tsz_optimizer::wrap_enums= a=b,tsz_optimizer::wrap_enums=debug" := by decide

end Log
end PureEnum
