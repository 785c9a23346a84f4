import PureEnum.Proofs.Spelling

/-! Defects. A spelling of a tree with one defect in it, however deep, is not read as any tree. The
error is that of the defect: neither the tree around it nor the depth has a part in it. What is a
defect is told for each slot apart from how it is read. -/
namespace PureEnum

/-! ### Rows, options and lists -/

namespace Json

inductive Form where
  | null | bool | number | text | list | object
  deriving DecidableEq, Repr

def form : Json → Form
  | null => .null
  | bool _ => .bool
  | integer _ | float _ => .number
  | str _ => .text
  | arr _ => .list
  | obj _ => .object

def Misplaced (taken : List Form) (e : ReadError) (j : Json) : Prop :=
  j.form ∉ taken ∧ e = .wrongType j

def Unknown {α : Type} (name : α → String) (e : ReadError) (j : Json) : Prop :=
  ∃ text, j = str text ∧ (∀ x, text ≠ name x) ∧ e = .unknownVariant text

variable {α : Type} (taken : List Form) (spells : α → Json → Prop)
  (spoils : α → ReadError → Json → Prop)

/-- Null is no defect in place of something, as nothing may be there. -/
def FlawedOption : Option α → ReadError → Json → Prop
  | none, e, j => j.Misplaced (.null :: taken) e
  | some x, e, j => j ≠ null ∧ spoils x e j

def FlawedList (xs : List α) (e : ReadError) (j : Json) : Prop :=
  j.Misplaced [.list] e ∨
    ∃ items, j = arr items ∧ OneFlaw spells (fun x j => spoils x e j) xs items

end Json

namespace Row

variable {σ : Type} {C : σ → Type}

def One (good bad : String → (s : σ) → C s → Prop) : {fields : List (String × σ)} →
    Row C fields → Prop
  | [], () => False
  | field :: _, (x, rest) => bad field.1 field.2 x ∧ rest.All good ∨
      good field.1 field.2 x ∧ One good bad rest

variable (spells : (s : σ) → C s → Json → Prop) (vacant : (s : σ) → C s → Prop)
  (required : σ → Prop) (spoils : (s : σ) → C s → ReadError → Json → Prop)

/-- The value of a field has a defect, or there is no value where one is required. -/
def BadEntry (e : ReadError) (source : List (String × Json)) (name : String) (s : σ) (x : C s) :
    Prop :=
  (∃ j, Json.under name source = [j] ∧ spoils s x e j) ∨
    Json.under name source = [] ∧ required s ∧ e = .missingField name

def FlawedNamed (e : ReadError) (source : List (String × Json)) {fields : List (String × σ)}
    (row : Row C fields) : Prop :=
  row.One (Entry spells vacant source) (BadEntry required spoils e source)

def FlawedListed (e : ReadError) : {fields : List (String × σ)} → Row C fields → List Json → Prop
  | [], (), _ => False
  | field :: _, (x, rest), items => ∃ j others, items = j :: others ∧
      (spoils field.2 x e j ∧ rest.Listed spells others ∨
        spells field.2 x j ∧ FlawedListed e rest others)

def Short : {fields : List (String × σ)} → Row C fields → List Json → Prop
  | [], (), _ => False
  | field :: _, (x, rest), items => items = [] ∨
      ∃ j others, items = j :: others ∧ spells field.2 x j ∧ Short rest others

/-- A record has a defect in a cell, or its array is cut short, or it is neither array nor
object. -/
def Spoils {fields : List (String × σ)} (row : Row C fields) (e : ReadError) : Json → Prop
  | .obj source => row.FlawedNamed spells vacant required spoils e source
  | .arr items => row.FlawedListed spells spoils e items ∨
      row.Short spells items ∧ e = .wrongLength items.length
  | j => e = .wrongType j

end Row

/-! ### Slots -/

section Slots

variable {ν : Type} (spelled : ν → Json → Prop) (spoiled : ν → ReadError → Json → Prop)

def Cell.Spoils : (c : Cell) → c.Content ν → ReadError → Json → Prop
  | node, x, e, j => spoiled x e j
  | node?, x, e, j => Json.FlawedOption [.list, .object] spoiled x e j
  | text, _, e, j => j.Misplaced [.text] e
  | flag, _, e, j => j.Misplaced [.bool] e

def Cell.Required : Cell → Prop
  | node? => False
  | node | text | flag => True

def Declaration.Spoils (d : Declaration ν) : ReadError → Json → Prop :=
  d.row.Spoils (Cell.Spells spelled) Cell.Vacant Cell.Required (Cell.Spoils spoiled)

def Parameter.Spoils (p : Parameter ν) : ReadError → Json → Prop :=
  p.row.Spoils (Cell.Spells spelled) Cell.Vacant Cell.Required (Cell.Spoils spoiled)

def Comment.Spoils (c : Comment) : ReadError → Json → Prop :=
  (c.row (ν := Empty)).Spoils (Cell.Spells fun _ _ => False) Cell.Vacant Cell.Required
    (Cell.Spoils fun _ _ _ => False)

def Modifiers.SpoilsJson (m : Modifiers) (e : ReadError) (j : Json) : Prop :=
  j.Misplaced [.text] e ∨ ∃ t flaw, j = .str t ∧ m.Spoiled flaw t.toList ∧ e = .badFlags flaw

/-- An object may be taken for a keyword, so it is not of a wrong type. -/
def Keyword.Spoils (e : ReadError) (j : Json) : Prop :=
  j.Unknown Keyword.name e ∨ j.Misplaced [.text, .object] e

def Slot.Spoils : (s : Slot) → s.Content ν → ReadError → Json → Prop
  | cell c, x, e, j => c.Spoils spoiled x e j
  | text?, x, e, j => Json.FlawedOption [.text] (fun _ e j => j.Misplaced [.text] e) x e j
  | texts, x, e, j => Json.FlawedList (fun s j => j = .str s) (fun _ e j => j.Misplaced [.text] e)
      x e j
  | nodes, x, e, j => Json.FlawedList spelled spoiled x e j
  | nodes?, x, e, j => Json.FlawedOption [.list] (Json.FlawedList spelled spoiled) x e j
  | modifiers, x, e, j => x.SpoilsJson e j
  | keyword, _, e, j => Keyword.Spoils e j
  | comment, x, e, j => x.Spoils e j
  | declarations, x, e, j => Json.FlawedList (Declaration.Spells spelled)
      (Declaration.Spoils spelled spoiled) x e j
  | parameters, x, e, j => Json.FlawedList (Parameter.Spells spelled)
      (Parameter.Spoils spelled spoiled) x e j

def Slot.Required : Slot → Prop
  | cell c => c.Required
  | text? | nodes? => False
  | texts | nodes | modifiers | keyword | comment | declarations | parameters => True

/-- Within a node a number that is not negative may be taken for a kind. -/
def Kind.Spoils (place : Place) (e : ReadError) (j : Json) : Prop :=
  j.Unknown Kind.name e ∨
    j.Misplaced [.text] e ∧ (place = .within → ∀ n : Nat, j ≠ .integer n)

/-- A node has a defect in its kind or in a field, or it is neither array nor object. -/
def Layer.Spoils (l : Layer ν) (place : Place) (e : ReadError) : Json → Prop
  | .obj source =>
    (Json.under "kind" source = [] ∧ e = .missingField "kind" ∧
      l.row.Named (Slot.Spells spelled) Slot.Vacant source) ∨
    (∃ j, Json.under "kind" source = [j] ∧ Kind.Spoils place e j ∧
      l.row.Named (Slot.Spells spelled) Slot.Vacant source) ∨
    Json.under "kind" source = [.str l.kind.name] ∧ l.row.FlawedNamed (Slot.Spells spelled)
      Slot.Vacant Slot.Required (Slot.Spoils spelled spoiled) e source
  | .arr [] => False
  | .arr (kind :: items) =>
    Kind.Spoils place e kind ∧ l.row.Listed (Slot.Spells spelled) items ∨
    kind = .str l.kind.name ∧
      l.row.FlawedListed (Slot.Spells spelled) (Slot.Spoils spelled spoiled) e items
  | j => e = .wrongType j

end Slots

/-- A value is a spelling of a tree but for one defect, which has this error. -/
def Node.Spoiled (n : Node) (place : Place) (e : ReadError) (j : Json) : Prop :=
  n.layer.Spoils Spelled (fun c e j => ∃ _ : c ∈ n.children, c.Spoiled .within e j) place e j
termination_by sizeOf n
decreasing_by exact sizeOf_lt_of_mem_children ‹_›

/-! ### Reading -/

section Reading

namespace Json

variable {α : Type} {spells : α → Json → Prop} {spoils : α → ReadError → Json → Prop}
  {read : Json → Read α} {taken : List Form} {e : ReadError} {j : Json}

theorem readOption_of_ne_null (full : j ≠ null) : j.readOption read = some <$> read j := by
  cases j with
  | null => contradiction
  | _ => rfl

theorem FlawedOption.readOption_eq {x : Option α} (flaw : FlawedOption taken spoils x e j)
    (strict : ∀ j, j.Misplaced taken e → read j = .error e)
    (fails : ∀ y ∈ x, ∀ j, spoils y e j → read j = .error e) : j.readOption read = .error e := by
  cases x with
  | none =>
    obtain ⟨apart, same⟩ := flaw
    rw [List.mem_cons, not_or] at apart
    have full : j ≠ null := by
      rintro rfl
      exact apart.1 rfl
    rw [readOption_of_ne_null full, strict j ⟨apart.2, same⟩]
    rfl
  | some y =>
    rw [readOption_of_ne_null flaw.1, fails y rfl j flaw.2]
    rfl

theorem readList_misplaced (apart : j.Misplaced [.list] e) : j.readList read = .error e := by
  obtain ⟨other, rfl⟩ := apart
  cases j with
  | arr => exact absurd List.mem_cons_self other
  | _ => rfl

theorem FlawedList.readList_eq {xs : List α} (flaw : FlawedList spells spoils xs e j)
    (back : ∀ x ∈ xs, ∀ j, spells x j → read j = .ok x)
    (fails : ∀ x ∈ xs, ∀ j, spoils x e j → read j = .error e) : j.readList read = .error e := by
  rcases flaw with apart | ⟨items, rfl, one⟩
  · exact readList_misplaced apart
  · exact mapM_eq_error one back fails

theorem readText_misplaced (apart : j.Misplaced [.text] e) : j.readText = .error e := by
  obtain ⟨other, rfl⟩ := apart
  cases j with
  | str => exact absurd List.mem_cons_self other
  | _ => rfl

theorem readFlag_misplaced (apart : j.Misplaced [.bool] e) : j.readFlag = .error e := by
  obtain ⟨other, rfl⟩ := apart
  cases j with
  | bool => exact absurd List.mem_cons_self other
  | _ => rfl

theorem readVariant_eq_error {name : α → String} {ofName? : String → Option α}
    (known : ∀ {text x}, ofName? text = some x → name x = text) {text : String}
    (none : ∀ x, text ≠ name x) : readVariant ofName? text = .error (.unknownVariant text) := by
  cases found : ofName? text with
  | none => rw [readVariant, found]
  | some x => exact absurd (known found).symm (none x)

end Json

namespace Row

variable {σ : Type} {C : σ → Type}

theorem One.imp {good bad good' bad' : String → (s : σ) → C s → Prop} :
    {fields : List (String × σ)} → {row : Row C fields} → row.One good bad →
    (∀ name s x, good name s x → good' name s x) → (∀ name s x, bad name s x → bad' name s x) →
    row.One good' bad'
  | [], (), one, _, _ => one
  | _ :: _, (_, _), .inl ⟨flaw, others⟩, weaker, weaker' =>
    .inl ⟨weaker' _ _ _ flaw, others.imp fun name s x _ => weaker name s x⟩
  | _ :: _, (_, _), .inr ⟨first, one⟩, weaker, weaker' =>
    .inr ⟨weaker _ _ _ first, one.imp weaker weaker'⟩

theorem One.and {good bad each : String → (s : σ) → C s → Prop} :
    {fields : List (String × σ)} → {row : Row C fields} → row.One good bad → row.All each →
    row.One (fun name s x => good name s x ∧ each name s x) fun name s x =>
      bad name s x ∧ each name s x
  | [], (), one, _ => one
  | _ :: _, (_, _), .inl ⟨flaw, others⟩, ⟨first, each⟩ => .inl ⟨⟨flaw, first⟩, others.and each⟩
  | _ :: _, (_, _), .inr ⟨good, one⟩, ⟨first, each⟩ => .inr ⟨⟨good, first⟩, one.and each⟩

variable {each : (s : σ) → Json → Read (C s)} {absent : (s : σ) → Option (C s)}
  {source : List (String × Json)} {e : ReadError}

/-- Fields are not read from an object when one of them is not, and the error is that of the
field. -/
theorem readNamed_eq_error : {fields : List (String × σ)} → {row : Row C fields} →
    (row.One (fun name s x => (∃ j, source.lookup name = some j ∧ each s j = .ok x) ∨
        source.lookup name = none ∧ absent s = some x)
      fun name s _ => (∃ j, source.lookup name = some j ∧ each s j = .error e) ∨
        source.lookup name = none ∧ absent s = none ∧ e = .missingField name) →
    readNamed each absent source fields = .error e
  | [], (), one => one.elim
  | (name, s) :: fields, (x, rest), .inl ⟨flaw, _⟩ => by
    rw [readNamed]
    rcases flaw with ⟨j, there, fails⟩ | ⟨missing, needed, rfl⟩
    · rw [there]
      change (each s j >>= _) = _
      rw [fails]
      rfl
    · rw [missing]
      simp only [needed]
      rfl
  | (name, s) :: fields, (x, rest), .inr ⟨first, one⟩ => by
    rw [readNamed, readNamed_eq_error one]
    rcases first with ⟨j, there, reads⟩ | ⟨missing, default⟩
    · rw [there]
      change (each s j >>= _) = _
      rw [reads]
      rfl
    · rw [missing]
      simp only [default]
      rfl

variable {spells : (s : σ) → C s → Json → Prop} {vacant : (s : σ) → C s → Prop}
  {required : σ → Prop} {spoils : (s : σ) → C s → ReadError → Json → Prop}

theorem FlawedNamed.readNamed_eq {fields : List (String × σ)} {row : Row C fields}
    (flaw : row.FlawedNamed spells vacant required spoils e source)
    (defaults : ∀ s x, vacant s x → absent s = some x)
    (needs : ∀ s, required s → absent s = none)
    (back : row.All fun _ s x => ∀ j, spells s x j → each s j = .ok x)
    (fails : row.All fun _ s x => ∀ j, spoils s x e j → each s j = .error e) :
    readNamed each absent source fields = .error e := by
  refine readNamed_eq_error (((flaw.and back).and fails).imp ?_ ?_)
  · rintro name s x ⟨⟨entry, reads⟩, -⟩
    exact entry.lookup_cases defaults reads
  · rintro name s x ⟨⟨⟨j, there, flaw⟩ | ⟨missing, needed, same⟩, -⟩, fails⟩
    · exact .inl ⟨j, by rw [Json.lookup_eq_head?_under, there]; rfl, fails j flaw⟩
    · exact .inr ⟨by rw [Json.lookup_eq_head?_under, missing]; rfl, needs s needed, same⟩

theorem FlawedListed.readListed_eq (count : Nat) : {fields : List (String × σ)} →
    {row : Row C fields} → {items : List Json} → row.FlawedListed spells spoils e items →
    (row.All fun _ s x => ∀ j, spells s x j → each s j = .ok x) →
    (row.All fun _ s x => ∀ j, spoils s x e j → each s j = .error e) →
    readListed each count items fields = .error e
  | [], (), _, flaw, _, _ => flaw.elim
  | (name, s) :: fields, (x, rest), _, ⟨j, others, rfl, .inl ⟨flaw, _⟩⟩, _, ⟨first, _⟩ => by
    rw [readListed, first j flaw]
    rfl
  | (name, s) :: fields, (x, rest), _, ⟨j, others, rfl, .inr ⟨written, flaw⟩⟩, ⟨first, back⟩,
      ⟨_, fails⟩ => by
    rw [readListed, readListed_eq count flaw back fails, first j written]
    rfl

theorem Short.readListed_eq (count : Nat) : {fields : List (String × σ)} →
    {row : Row C fields} → {items : List Json} → row.Short spells items →
    (row.All fun _ s x => ∀ j, spells s x j → each s j = .ok x) →
    readListed each count items fields = .error (.wrongLength count)
  | [], (), _, short, _ => short.elim
  | (name, s) :: fields, (x, rest), _, .inl rfl, _ => rfl
  | (name, s) :: fields, (x, rest), _, .inr ⟨j, others, rfl, written, short⟩, ⟨first, back⟩ => by
    rw [readListed, readListed_eq count short back, first j written]
    rfl

end Row

variable {ν : Type} {spelled : ν → Json → Prop} {spoiled : ν → ReadError → Json → Prop}
  {node : Json → Read ν} {e : ReadError} {j : Json}

theorem Cell.absent_of_required (c : Cell) (required : c.Required) :
    c.absent (ν := ν) = none := by
  cases c with
  | node? => exact required.elim
  | _ => rfl

theorem Slot.absent_of_required (s : Slot) (required : s.Required) :
    s.absent (ν := ν) = none := by
  cases s with
  | cell c => exact c.absent_of_required required
  | text? | nodes? => exact required.elim
  | _ => rfl

section

variable (full : ∀ c, ¬ spelled c .null)
  (strict : ∀ j, j.Misplaced [.list, .object] e → node j = .error e)

include strict in
theorem Cell.Spoils.read_eq {c : Cell} {x : c.Content ν} (flaw : c.Spoils spoiled x e j)
    (fails : ∀ n ∈ c.children x, ∀ j, spoiled n e j → node j = .error e) :
    c.read node j = .error e := by
  cases c with
  | node => exact fails x List.mem_cons_self j flaw
  | node? =>
    exact flaw.readOption_eq strict fun y present => fails y (Option.mem_toList.mpr present)
  | text => exact Json.readText_misplaced flaw
  | flag => exact Json.readFlag_misplaced flaw

include full strict

/-- A record with a defect is read neither from an object nor from an array. -/
theorem Cell.readRow_eq_error {fields : List (String × Cell)} {row : Row (Content ν) fields}
    (flaw : row.Spoils (Spells spelled) Vacant Required (Spoils spoiled) e j)
    (back : row.All fun _ c x => ∀ n ∈ c.children x, ∀ j, spelled n j → node j = .ok n)
    (fails : row.All fun _ c x => ∀ n ∈ c.children x, ∀ j, spoiled n e j → node j = .error e) :
    readRow node fields j = .error e := by
  have reads : row.All fun _ c x => ∀ j, c.Spells spelled x j → c.read node j = .ok x :=
    back.imp fun _ c x _ reads j written => Spells.read_eq full written reads
  have refuses : row.All fun _ c x => ∀ j, c.Spoils spoiled x e j → c.read node j = .error e :=
    fails.imp fun _ c x _ fails j flaw => Spoils.read_eq strict flaw fails
  cases j with
  | obj source =>
    exact Row.FlawedNamed.readNamed_eq flaw absent_of_vacant absent_of_required reads refuses
  | arr items =>
    rcases flaw with flaw | ⟨short, rfl⟩
    · exact flaw.readListed_eq items.length reads refuses
    · exact short.readListed_eq items.length reads
  | _ =>
    obtain rfl := flaw
    rfl

theorem Declaration.Spoils.read_eq {d : Declaration ν} (flaw : d.Spoils spelled spoiled e j)
    (back : ∀ n ∈ d.children, ∀ j, spelled n j → node j = .ok n)
    (fails : ∀ n ∈ d.children, ∀ j, spoiled n e j → node j = .error e) :
    Declaration.read node j = .error e :=
  congrArg (ofRow <$> ·) (Cell.readRow_eq_error full strict flaw (all_row back) (all_row fails))

theorem Parameter.Spoils.read_eq {p : Parameter ν} (flaw : p.Spoils spelled spoiled e j)
    (back : ∀ n ∈ p.children, ∀ j, spelled n j → node j = .ok n)
    (fails : ∀ n ∈ p.children, ∀ j, spoiled n e j → node j = .error e) :
    Parameter.read node j = .error e :=
  congrArg (ofRow <$> ·) (Cell.readRow_eq_error full strict flaw (all_row back) (all_row fails))

end

theorem Comment.Spoils.ofJson_eq {c : Comment} (flaw : c.Spoils e j) :
    Comment.ofJson j = .error e := by
  have cells {P : Empty → Prop} : (c.row (ν := Empty)).All fun _ cell x =>
      ∀ n ∈ cell.children x, P n := ⟨nofun, nofun, trivial⟩
  have strict : ∀ j, j.Misplaced [.list, .object] e →
      (.error (.wrongType j) : Read Empty) = .error e := by
    rintro j ⟨-, rfl⟩
    rfl
  exact congrArg (ofRow <$> ·) (Cell.readRow_eq_error (fun _ => id) strict flaw cells cells)

theorem Modifiers.SpoilsJson.readModifiers_eq {m : Modifiers} (flaw : m.SpoilsJson e j) :
    j.readModifiers = .error e := by
  rcases flaw with apart | ⟨t, flaw, rfl, text, rfl⟩
  · simp [Json.readModifiers, Json.readText_misplaced apart, bind, Except.bind]
  · simp [Json.readModifiers, Json.readText, ofText, text.ofChars_eq, bind, Except.bind]

theorem Keyword.Spoils.ofJson_eq {place : Place} (flaw : Keyword.Spoils e j) :
    Keyword.ofJson place j = .error e := by
  rcases flaw with ⟨text, rfl, none, rfl⟩ | ⟨other, rfl⟩
  · have known {text : String} {keyword : Keyword} (found : ofName? text = some keyword) :
        keyword.name = text := by simpa using List.find?_some found
    exact Json.readVariant_eq_error known none
  · cases j with
    | str | obj => simp [Json.form] at other
    | _ => rfl

theorem Kind.Spoils.ofJson_eq {place : Place} (flaw : Kind.Spoils place e j) :
    Kind.ofJson place j = .error e := by
  rcases flaw with ⟨text, rfl, none, rfl⟩ | ⟨⟨other, rfl⟩, apart⟩
  · exact Json.readVariant_eq_error name_of_ofName? none
  · cases j with
    | str => simp [Json.form] at other
    | integer n =>
      have refused : ¬ (place = .within ∧ 0 ≤ n) := by
        rintro ⟨inner, positive⟩
        exact apart inner n.toNat (by rw [Int.toNat_of_nonneg positive])
      rw [ofJson, if_neg refused]
    | _ => rfl

theorem Slot.Spoils.read_eq (full : ∀ c, ¬ spelled c .null)
    (strict : ∀ j, j.Misplaced [.list, .object] e → node j = .error e) {s : Slot}
    {x : s.Content ν} (flaw : s.Spoils spelled spoiled x e j)
    (back : ∀ n ∈ s.children x, ∀ j, spelled n j → node j = .ok n)
    (fails : ∀ n ∈ s.children x, ∀ j, spoiled n e j → node j = .error e) :
    s.read node j = .error e := by
  cases s with
  | cell c => exact Cell.Spoils.read_eq strict flaw fails
  | text? =>
    exact Json.FlawedOption.readOption_eq flaw (fun _ => Json.readText_misplaced)
      fun _ _ _ => Json.readText_misplaced
  | texts =>
    refine Json.FlawedList.readList_eq flaw ?_ fun _ _ _ => Json.readText_misplaced
    rintro t - _ rfl
    rfl
  | nodes => exact Json.FlawedList.readList_eq flaw back fails
  | nodes? =>
    refine Json.FlawedOption.readOption_eq flaw (fun _ => Json.readList_misplaced) ?_
    rintro xs rfl j flaw
    exact flaw.readList_eq back fails
  | modifiers => exact Modifiers.SpoilsJson.readModifiers_eq flaw
  | keyword => exact Keyword.Spoils.ofJson_eq flaw
  | comment => exact Comment.Spoils.ofJson_eq flaw
  | declarations =>
    refine Json.FlawedList.readList_eq flaw ?_ ?_
    · exact fun d member j written => written.read_eq full fun n inside =>
        back n (List.mem_flatMap.mpr ⟨d, member, inside⟩)
    · exact fun d member j flaw => flaw.read_eq full strict
        (fun n inside => back n (List.mem_flatMap.mpr ⟨d, member, inside⟩))
        fun n inside => fails n (List.mem_flatMap.mpr ⟨d, member, inside⟩)
  | parameters =>
    refine Json.FlawedList.readList_eq flaw ?_ ?_
    · exact fun p member j written => written.read_eq full fun n inside =>
        back n (List.mem_flatMap.mpr ⟨p, member, inside⟩)
    · exact fun p member j flaw => flaw.read_eq full strict
        (fun n inside => back n (List.mem_flatMap.mpr ⟨p, member, inside⟩))
        fun n inside => fails n (List.mem_flatMap.mpr ⟨p, member, inside⟩)

/-- A node with a defect is read neither from an object nor from an array. -/
theorem Layer.Spoils.read_eq (full : ∀ c, ¬ spelled c .null)
    (strict : ∀ j, j.Misplaced [.list, .object] e → node j = .error e) {place : Place}
    {l : Layer ν} (flaw : l.Spoils spelled spoiled place e j)
    (back : ∀ n ∈ l.children, ∀ j, spelled n j → node j = .ok n)
    (fails : ∀ n ∈ l.children, ∀ j, spoiled n e j → node j = .error e) :
    Layer.read node place j = .error e := by
  obtain ⟨kind, row⟩ := l
  have reads : row.All fun _ s x => ∀ j, s.Spells spelled x j → s.read node j = .ok x :=
    (Row.all_of_children back).imp fun _ s x _ back j written => written.read_eq full back
  have refuses : row.All fun _ s x => ∀ j, s.Spoils spelled spoiled x e j →
      s.read node j = .error e :=
    ((Row.all_of_children back).and (Row.all_of_children fails)).imp
      fun _ s x _ ⟨back, fails⟩ j flaw => flaw.read_eq full strict back fails
  cases j with
  | obj source =>
    rw [Layer.read, Kind.read, Json.lookup_eq_head?_under]
    rcases flaw with ⟨missing, rfl, -⟩ | ⟨j, there, flaw, -⟩ | ⟨there, flaw⟩
    · rw [missing]
      rfl
    · rw [there]
      change ((Kind.ofJson place j >>= _) >>= _) = _
      rw [flaw.ofJson_eq]
      rfl
    · have fields := flaw.readNamed_eq Slot.absent_of_vacant Slot.absent_of_required reads refuses
      simp only [there, List.head?_cons, Kind.ofJson_name]
      change (Row.readNamed _ _ _ kind.fields >>= _) = _
      rw [fields]
      rfl
  | arr items =>
    cases items with
    | nil => contradiction
    | cons first items =>
      rw [Layer.read, Kind.read]
      rcases flaw with ⟨flaw, -⟩ | ⟨rfl, flaw⟩
      · rw [flaw.ofJson_eq]
        rfl
      · have fields := flaw.readListed_eq items.length reads refuses
        simp only [Kind.ofJson_name]
        change (Row.readListed _ _ _ kind.fields >>= _) = _
        rw [fields]
        rfl
  | _ =>
    obtain rfl := flaw
    rfl

end Reading

namespace Node

theorem ofJson_misplaced {place : Place} {e : ReadError} {j : Json}
    (apart : j.Misplaced [.list, .object] e) : ofJson place j = .error e := by
  obtain ⟨other, rfl⟩ := apart
  rw [ofJson_eq]
  cases j with
  | arr | obj => simp [Json.form] at other
  | _ => rfl

/-- One defect spoils a tree. However deep it is, and whatever is around it, the tree is not read,
and the error is the one of the defect. -/
theorem spoiled_refused {n : Node} {place : Place} {e : ReadError} {j : Json}
    (flaw : n.Spoiled place e j) : ofJson place j = .error e := by
  induction n using induction_on_children generalizing place j with
  | step n ih =>
    rw [Spoiled] at flaw
    have layer := flaw.read_eq not_spelled_null (fun _ => ofJson_misplaced)
      (fun c _ j written => written.ofJson_eq .within) fun c _ j ⟨child, below⟩ => ih c child below
    rw [ofJson_eq, layer]
    rfl

def textless : Json := .obj [("kind", .str "VariableStatement"), ("modifiers", .str ""),
  ("declaration_kind", .str "Var"), ("declarations", .arr [.arr [
    .obj [("kind", .str "Identifier"), ("text", .str "x")],
    .obj [("expression", .obj [("kind", .str "NumericLiteral")]),
      ("kind", .str "ParenthesizedExpression")]]])]

theorem spoiled_refused_textless :
    let n : Node := .variableStatement .empty .var [⟨.identifier "x",
      some (.parenthesizedExpression (.numericLiteral "1"))⟩]
    n.Spoiled .alone (.missingField "text") textless ∧
      ofJson .alone textless = .error (.missingField "text") := by
  intro n
  have name : (identifier "x").Spelled
      (.obj [("kind", .str "Identifier"), ("text", .str "x")]) := by
    rw [Spelled]
    exact ⟨rfl, .inl ⟨_, rfl, rfl⟩, trivial⟩
  have literal : (numericLiteral "1").Spoiled .within (.missingField "text")
      (.obj [("kind", .str "NumericLiteral")]) := by
    rw [Spoiled]
    exact .inr (.inr ⟨rfl, .inl ⟨.inr ⟨rfl, trivial, rfl⟩, trivial⟩⟩)
  have value : (parenthesizedExpression (.numericLiteral "1")).Spoiled .within
      (.missingField "text") (.obj [("expression", .obj [("kind", .str "NumericLiteral")]),
        ("kind", .str "ParenthesizedExpression")]) := by
    rw [Spoiled]
    exact .inr (.inr ⟨rfl, .inl ⟨.inl ⟨_, rfl, List.mem_cons_self, literal⟩, trivial⟩⟩)
  have flags : Modifiers.Spelled .empty "".toList := .inl ⟨rfl, List.forall_mem_nil _⟩
  have flaw : n.Spoiled .alone (.missingField "text") textless := by
    have inside : Node.parenthesizedExpression (.numericLiteral "1") ∈ n.children :=
      List.mem_cons_of_mem _ List.mem_cons_self
    rw [Spoiled]
    refine .inr (.inr ⟨rfl, .inr ⟨.inl ⟨_, rfl, _, rfl, flags⟩, .inr ⟨.inl ⟨_, rfl, rfl⟩,
      .inl ⟨.inl ⟨_, rfl, .inr ⟨_, rfl, .here ?_ .nil⟩⟩, trivial⟩⟩⟩⟩)
    exact .inl ⟨_, _, rfl, .inr ⟨name, _, _, rfl, .inl ⟨⟨Json.noConfusion, inside, value⟩, rfl⟩⟩⟩
  exact ⟨flaw, spoiled_refused flaw⟩

def nameless (modifiers keyword : Json) : Json := .obj [("kind", .str "VariableStatement"),
  ("modifiers", modifiers), ("declaration_kind", keyword), ("declarations", .arr [])]

/-- What is taken all the same: an object for a keyword, a number for a kind within a node, and a
text without its only piece. -/
theorem misplaced_accepted :
    (variableStatement ⟨Modifier.exported.mask⟩ .let []).toJson =
      nameless (.str "EXPORT") (.str "Let") ∧
    ofJson .alone (nameless (.str "EXPORT") (.obj [("Let", .null)])) =
      .ok (.variableStatement ⟨Modifier.exported.mask⟩ .let []) ∧
    ofJson .alone (nameless (.str "EXPORT") (.obj [])) = .error (.wrongValue (.obj [])) ∧
    ofJson .alone (nameless (.str "") (.str "Let")) = .ok (.variableStatement .empty .let []) ∧
    ofJson .alone (.obj [("kind", .str "ExpressionStatement"),
      ("expression", .obj [("kind", .integer 28), ("text", .str "x")])]) =
        .ok (.expressionStatement (.identifier "x")) := by
  refine ⟨?_, rfl, rfl, rfl, rfl⟩
  rw [toJson_eq]
  rfl

end Node

end PureEnum
