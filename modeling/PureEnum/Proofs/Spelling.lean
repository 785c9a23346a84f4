import PureEnum.Proofs.FlagText
import PureEnum.Proofs.RoundTrip

/-! Spellings of a tree. Besides its written form a tree has many others: fields in any order and
among unknown ones, options left out where nothing is in them, arrays in place of objects, and
flags in any text of their set. Each node and each record is free to be written in its own way. All
of them are read as the same tree. -/
namespace PureEnum

/-! ### Rows, options and lists -/

namespace Json

def under (name : String) (fields : List (String × Json)) : List Json :=
  (fields.filter fun field => field.1 == name).map Prod.snd

theorem under_cons_self (name : String) (j : Json) (fields : List (String × Json)) :
    under name ((name, j) :: fields) = j :: under name fields := by simp [under]

theorem under_cons_of_ne {name key : String} (apart : key ≠ name) (j : Json)
    (fields : List (String × Json)) : under name ((key, j) :: fields) = under name fields := by
  simp [under, apart]

theorem under_append (name : String) (front fields : List (String × Json)) :
    under name (front ++ fields) = under name front ++ under name fields := by
  simp [under]

theorem under_eq_nil {name : String} {fields : List (String × Json)}
    (missing : ∀ field ∈ fields, field.1 ≠ name) : under name fields = [] := by
  simpa [under] using missing

theorem lookup_eq_head?_under {name : String} : {fields : List (String × Json)} →
    fields.lookup name = (under name fields).head?
  | [] => rfl
  | (key, j) :: fields => by
    by_cases same : key = name
    · simp [under, same]
    · have apart : (name == key) = false := beq_false_of_ne (Ne.symm same)
      rw [List.lookup_cons, apart, under, List.filter_cons_of_neg (by simpa using same), ← under]
      exact lookup_eq_head?_under

variable {α : Type} (spells : α → Json → Prop)

def OfOption : Option α → Json → Prop
  | none, j => j = null
  | some x, j => spells x j

def OfList (xs : List α) (j : Json) : Prop := ∃ items, j = arr items ∧ List.Forall₂ spells xs items

end Json

namespace Row

variable {σ : Type} {C : σ → Type} (spells : (s : σ) → C s → Json → Prop)
  (vacant : (s : σ) → C s → Prop)

/-- A field has one value in an object, or none where there is nothing in it. -/
def Entry (source : List (String × Json)) (name : String) (s : σ) (x : C s) : Prop :=
  (∃ j, Json.under name source = [j] ∧ spells s x j) ∨ Json.under name source = [] ∧ vacant s x

/-- Each field has its value in an object. Fields of other names may stand there too. -/
def Named (source : List (String × Json)) {fields : List (String × σ)} (row : Row C fields) :
    Prop := row.All (Entry spells vacant source)

def Listed : {fields : List (String × σ)} → Row C fields → List Json → Prop
  | [], (), items => items = []
  | field :: _, (x, rest), items =>
    ∃ j others, items = j :: others ∧ spells field.2 x j ∧ Listed rest others

def Spells {fields : List (String × σ)} (row : Row C fields) : Json → Prop
  | .obj source => row.Named spells vacant source
  | .arr items => row.Listed spells items
  | _ => False

end Row

/-! ### Slots -/

section Slots

variable {ν : Type} (spelled : ν → Json → Prop)

def Cell.Spells : (c : Cell) → c.Content ν → Json → Prop
  | node, x, j => spelled x j
  | node?, x, j => Json.OfOption spelled x j
  | text, x, j => j = .str x
  | flag, x, j => j = .bool x

/-- There is nothing in the content, so its field may be left out. -/
def Cell.Vacant : (c : Cell) → c.Content ν → Prop
  | node?, x => x = none
  | node, _ | text, _ | flag, _ => False

def Declaration.Spells (d : Declaration ν) : Json → Prop :=
  d.row.Spells (Cell.Spells spelled) Cell.Vacant

def Parameter.Spells (p : Parameter ν) : Json → Prop :=
  p.row.Spells (Cell.Spells spelled) Cell.Vacant

def Comment.Spells (c : Comment) : Json → Prop :=
  (c.row (ν := Empty)).Spells (Cell.Spells fun _ _ => False) Cell.Vacant

def Slot.Spells : (s : Slot) → s.Content ν → Json → Prop
  | cell c, x, j => c.Spells spelled x j
  | text?, x, j => Json.OfOption (fun s j => j = .str s) x j
  | texts, x, j => j = .texts x
  | nodes, x, j => Json.OfList spelled x j
  | nodes?, x, j => Json.OfOption (Json.OfList spelled) x j
  | modifiers, x, j => ∃ t, j = .str t ∧ x.Spelled t.toList
  | keyword, x, j => j = .str x.name
  | comment, x, j => x.Spells j
  | declarations, x, j => Json.OfList (Declaration.Spells spelled) x j
  | parameters, x, j => Json.OfList (Parameter.Spells spelled) x j

def Slot.Vacant : (s : Slot) → s.Content ν → Prop
  | cell c, x => c.Vacant x
  | text?, x => x = none
  | nodes?, x => x = none
  | texts, _ | nodes, _ | modifiers, _ | keyword, _ | comment, _ | declarations, _
  | parameters, _ => False

/-- A node is written as an object with its kind anywhere in it, or as an array behind its kind. -/
def Layer.Spells (l : Layer ν) : Json → Prop
  | .obj source => Json.under "kind" source = [.str l.kind.name] ∧
      l.row.Named (Slot.Spells spelled) Slot.Vacant source
  | .arr (kind :: items) => kind = .str l.kind.name ∧ l.row.Listed (Slot.Spells spelled) items
  | _ => False

end Slots

/-- A value is a spelling of a tree, whatever spellings are chosen for the nodes in it. -/
def Node.Spelled (n : Node) (j : Json) : Prop :=
  -- Only nodes in the tree are ever asked for, and the recursion ends by that.
  n.layer.Spells (fun c j => ∃ _ : c ∈ n.children, c.Spelled j) j
termination_by sizeOf n
decreasing_by exact sizeOf_lt_of_mem_children ‹_›

/-! ### Reading -/

section Reading

namespace Json

variable {α : Type} {spells : α → Json → Prop} {read : Json → Read α} {j : Json}

theorem OfOption.readOption_eq {x : Option α} (written : OfOption spells x j)
    (full : ∀ y ∈ x, ¬ spells y null) (back : ∀ y ∈ x, ∀ j, spells y j → read j = .ok y) :
    j.readOption read = .ok x := by
  cases x with
  | none =>
    obtain rfl : j = null := written
    rfl
  | some y =>
    have reads : some <$> read j = .ok (some y) := by
      rw [back y rfl j written]
      rfl
    cases j with
    | null => exact absurd written (full y rfl)
    | _ => exact reads

theorem OfList.readList_eq {xs : List α} (written : OfList spells xs j)
    (back : ∀ x ∈ xs, ∀ j, spells x j → read j = .ok x) : j.readList read = .ok xs := by
  obtain ⟨items, rfl, each⟩ := written
  exact mapM_eq_ok_of_forall₂ each back

theorem not_ofList_null (xs : List α) : ¬ OfList spells xs null := by
  rintro ⟨items, other, -⟩
  contradiction

end Json

namespace Row

variable {σ : Type} {C : σ → Type} {spells : (s : σ) → C s → Json → Prop}
  {vacant : (s : σ) → C s → Prop} {each : (s : σ) → Json → Read (C s)}
  {absent : (s : σ) → Option (C s)} {fields : List (String × σ)} {row : Row C fields}

theorem Entry.lookup_cases {source : List (String × Json)} {name : String} {s : σ} {x : C s}
    (entry : Entry spells vacant source name s x)
    (defaults : ∀ s x, vacant s x → absent s = some x)
    (back : ∀ j, spells s x j → each s j = .ok x) :
    (∃ j, source.lookup name = some j ∧ each s j = .ok x) ∨
      source.lookup name = none ∧ absent s = some x := by
  rw [Json.lookup_eq_head?_under]
  rcases entry with ⟨j, there, written⟩ | ⟨missing, nothing⟩
  · exact .inl ⟨j, congrArg List.head? there, back j written⟩
  · exact .inr ⟨congrArg List.head? missing, defaults s x nothing⟩

theorem Named.readNamed_eq {source : List (String × Json)} (named : row.Named spells vacant source)
    (defaults : ∀ s x, vacant s x → absent s = some x)
    (back : row.All fun _ s x => ∀ j, spells s x j → each s j = .ok x) :
    readNamed each absent source fields = .ok row :=
  readNamed_eq_ok ((All.and named back).imp fun _ _ _ _ ⟨entry, reads⟩ =>
    entry.lookup_cases defaults reads)

theorem Listed.readListed_eq (count : Nat) : {fields : List (String × σ)} → {row : Row C fields} →
    {items : List Json} → row.Listed spells items →
    (row.All fun _ s x => ∀ j, spells s x j → each s j = .ok x) →
    readListed each count items fields = .ok row
  | [], (), _, rfl, _ => rfl
  | (name, s) :: fields, (x, rest), _, ⟨j, others, rfl, written, listed⟩, ⟨first, back⟩ => by
    rw [readListed, listed.readListed_eq count back, first j written]
    rfl

end Row

variable {ν : Type} {spelled : ν → Json → Prop} {node : Json → Read ν} {j : Json}

theorem Cell.absent_of_vacant (c : Cell) (x : c.Content ν) (vacant : c.Vacant x) :
    c.absent = some x := by
  cases c with
  | node? => exact congrArg some (Eq.symm vacant)
  | _ => contradiction

theorem Slot.absent_of_vacant (s : Slot) (x : s.Content ν) (vacant : s.Vacant x) :
    s.absent = some x := by
  cases s with
  | cell c => exact c.absent_of_vacant x vacant
  | text? | nodes? => exact congrArg some (Eq.symm vacant)
  | _ => contradiction

section

variable (full : ∀ c, ¬ spelled c .null)
include full

theorem Cell.Spells.read_eq {c : Cell} {x : c.Content ν} (written : c.Spells spelled x j)
    (back : ∀ n ∈ c.children x, ∀ j, spelled n j → node j = .ok n) : c.read node j = .ok x := by
  cases c with
  | node => exact back x List.mem_cons_self j written
  | node? =>
    exact written.readOption_eq (fun y _ => full y) fun y present =>
      back y (Option.mem_toList.mpr present)
  | text | flag =>
    obtain rfl := written
    rfl

/-- A record is read from an object and from an array. -/
theorem Cell.readRow_eq {fields : List (String × Cell)} {row : Row (Content ν) fields}
    (written : row.Spells (Spells spelled) Vacant j)
    (back : row.All fun _ c x => ∀ n ∈ c.children x, ∀ j, spelled n j → node j = .ok n) :
    readRow node fields j = .ok row := by
  have cells : row.All fun _ c x => ∀ j, c.Spells spelled x j → c.read node j = .ok x :=
    back.imp fun _ c x _ reads j written => Spells.read_eq full written reads
  cases j with
  | obj source => exact Row.Named.readNamed_eq written absent_of_vacant cells
  | arr items => exact Row.Listed.readListed_eq items.length written cells
  | _ => contradiction

theorem Declaration.Spells.read_eq {d : Declaration ν} (written : d.Spells spelled j)
    (back : ∀ n ∈ d.children, ∀ j, spelled n j → node j = .ok n) :
    Declaration.read node j = .ok d :=
  congrArg (ofRow <$> ·) (Cell.readRow_eq full written (all_row back))

theorem Parameter.Spells.read_eq {p : Parameter ν} (written : p.Spells spelled j)
    (back : ∀ n ∈ p.children, ∀ j, spelled n j → node j = .ok n) :
    Parameter.read node j = .ok p :=
  congrArg (ofRow <$> ·) (Cell.readRow_eq full written (all_row back))

end

theorem Comment.Spells.ofJson_eq {c : Comment} (written : c.Spells j) :
    Comment.ofJson j = .ok c := by
  have cells : (c.row (ν := Empty)).All fun _ cell x => ∀ n ∈ cell.children x, ∀ j, False →
      (.error (.wrongType j) : Read Empty) = .ok n := ⟨nofun, nofun, trivial⟩
  exact congrArg (ofRow <$> ·) (Cell.readRow_eq (fun _ => id) written cells)

theorem Modifiers.Spelled.readModifiers_eq {m : Modifiers} {t : String}
    (spelled : m.Spelled t.toList) : (Json.str t).readModifiers = .ok m := by
  simp [Json.readModifiers, Json.readText, ofText, spelled.ofChars_eq, bind, Except.bind]

theorem Slot.Spells.read_eq (full : ∀ c, ¬ spelled c .null) {s : Slot} {x : s.Content ν}
    (written : s.Spells spelled x j)
    (back : ∀ n ∈ s.children x, ∀ j, spelled n j → node j = .ok n) : s.read node j = .ok x := by
  cases s with
  | cell c => exact Cell.Spells.read_eq full written back
  | text? =>
    refine Json.OfOption.readOption_eq written (fun _ _ => Json.noConfusion) ?_
    rintro t - _ rfl
    rfl
  | texts =>
    obtain rfl := written
    exact Json.readList_map fun _ _ => rfl
  | nodes => exact Json.OfList.readList_eq written back
  | nodes? =>
    refine Json.OfOption.readOption_eq written (fun xs _ => Json.not_ofList_null xs) ?_
    rintro xs rfl j items
    exact items.readList_eq back
  | modifiers =>
    obtain ⟨t, rfl, text⟩ := written
    exact text.readModifiers_eq
  | keyword =>
    obtain rfl := written
    exact Keyword.ofJson_name .within x
  | comment => exact Comment.Spells.ofJson_eq written
  | declarations =>
    exact Json.OfList.readList_eq written fun d member j declared =>
      declared.read_eq full fun n inside => back n (List.mem_flatMap.mpr ⟨d, member, inside⟩)
  | parameters =>
    exact Json.OfList.readList_eq written fun p member j declared =>
      declared.read_eq full fun n inside => back n (List.mem_flatMap.mpr ⟨p, member, inside⟩)

/-- A node is read from an object and from an array. -/
theorem Layer.Spells.read_eq (full : ∀ c, ¬ spelled c .null) (place : Place) {l : Layer ν}
    (written : l.Spells spelled j)
    (back : ∀ n ∈ l.children, ∀ j, spelled n j → node j = .ok n) :
    Layer.read node place j = .ok l := by
  obtain ⟨kind, row⟩ := l
  have slots : row.All fun _ s x => ∀ j, s.Spells spelled x j → s.read node j = .ok x :=
    (Row.all_of_children back).imp fun _ s x _ back j written => written.read_eq full back
  cases j with
  | obj source =>
    obtain ⟨there, named⟩ := written
    have found : source.lookup "kind" = some (.str kind.name) := by
      rw [Json.lookup_eq_head?_under, there]
      rfl
    have fields := named.readNamed_eq Slot.absent_of_vacant slots
    simp only [Layer.read, Kind.read, found, Kind.ofJson_name]
    change (Row.readNamed _ _ _ kind.fields >>= _) = _
    rw [fields]
    rfl
  | arr items =>
    cases items with
    | nil => contradiction
    | cons first items =>
      obtain ⟨rfl, listed⟩ := written
      have fields := listed.readListed_eq items.length slots
      simp only [Layer.read, Kind.read, Kind.ofJson_name]
      change (Row.readListed _ _ _ kind.fields >>= _) = _
      rw [fields]
      rfl
  | _ => contradiction

end Reading

namespace Node

theorem not_spelled_null (n : Node) : ¬ n.Spelled .null := by
  rw [Spelled]
  exact id

/-- A spelling of a tree is read as the tree, wherever it stands. -/
theorem Spelled.ofJson_eq {n : Node} {j : Json} (written : n.Spelled j) (place : Place) :
    ofJson place j = .ok n := by
  induction n using induction_on_children generalizing place j with
  | step n ih =>
    rw [Spelled] at written
    have layer := written.read_eq (fun c ⟨_, below⟩ => c.not_spelled_null below) place
      fun c _ j ⟨child, below⟩ => ih c child below .within
    rw [Node.ofJson_eq, layer]
    exact congrArg Except.ok n.node_layer

end Node

/-! ### The written form -/

section Writing

namespace Row

variable {σ : Type} {C : σ → Type} {spells : (s : σ) → C s → Json → Prop}
  {vacant : (s : σ) → C s → Prop} {write : (s : σ) → C s → Json}

theorem under_encode (write : (s : σ) → C s → Json) : {fields : List (String × σ)} →
    (row : Row C fields) → (fields.map Prod.fst).Nodup →
    row.All fun name s x => Json.under name (row.encode write) = [write s x]
  | [], (), _ => trivial
  | (name, s) :: fields, (x, rest), nodup => by
    obtain ⟨fresh, nodup⟩ := List.nodup_cons.mp nodup
    refine ⟨?_, (under_encode write rest nodup).imp ?_⟩
    · refine (Json.under_cons_self ..).trans (congrArg _ (Json.under_eq_nil ?_))
      rintro field member rfl
      rw [← names_encode write rest] at fresh
      exact fresh (List.mem_map_of_mem member)
    · intro other s' y member there
      rw [encode, Json.under_cons_of_ne _ _ _, there]
      rintro rfl
      exact fresh member

/-- A row is spelled by the object of its contents, also behind entries of other names. -/
theorem named_encode {fields : List (String × σ)} (front : List (String × Json))
    (apart : ∀ name ∈ fields.map Prod.fst, Json.under name front = [])
    (nodup : (fields.map Prod.fst).Nodup) {row : Row C fields}
    (each : row.All fun _ s x => spells s x (write s x)) :
    row.Named spells vacant (front ++ row.encode write) := by
  refine (All.and (under_encode write row nodup) each).imp ?_
  rintro name s x member ⟨there, written⟩
  refine .inl ⟨write s x, ?_, written⟩
  rw [Json.under_append, apart name member, there]
  rfl

end Row

variable {ν : Type} {spelled : ν → Json → Prop} {write : ν → Json}

theorem Json.ofList_arr {α : Type} {spells : α → Json → Prop} {write : α → Json} {xs : List α}
    (each : ∀ x ∈ xs, spells x (write x)) : OfList spells xs (.arr (xs.map write)) :=
  ⟨_, rfl, List.forall₂_map_right_iff.mpr (List.forall₂_same.mpr each)⟩

theorem Cell.spells_encode : (c : Cell) → (x : c.Content ν) →
    (∀ n ∈ c.children x, spelled n (write n)) → c.Spells spelled x (c.encode (c.map write x))
  | .node, _, each => each _ List.mem_cons_self
  | .node?, none, _ => rfl
  | .node?, some _, each => each _ List.mem_cons_self
  | .text, _, _ => rfl
  | .flag, _, _ => rfl

theorem Cell.row_spells_encode {fields : List (String × Cell)} (nodup : (fields.map Prod.fst).Nodup)
    {row : Row (Content ν) fields}
    (each : row.All fun _ c x => ∀ n ∈ c.children x, spelled n (write n)) :
    row.Spells (Spells spelled) Vacant (.obj (row.encode fun c x => c.encode (c.map write x))) :=
  Row.named_encode [] (fun _ _ => rfl) nodup
    (each.imp fun _ c x _ written => c.spells_encode x written)

theorem Slot.spells_encode (s : Slot) (x : s.Content ν)
    (each : ∀ n ∈ s.children x, spelled n (write n)) :
    s.Spells spelled x (s.encode (s.map write x)) := by
  cases s with
  | cell c => exact c.spells_encode x each
  | text? => cases x <;> rfl
  | texts | keyword => rfl
  | nodes => exact Json.ofList_arr each
  | nodes? =>
    cases x with
    | none => rfl
    | some xs => exact Json.ofList_arr each
  | modifiers => exact ⟨_, rfl, x.spelled_text⟩
  | comment =>
    have cells : (x.row (ν := Empty)).All fun _ c y => ∀ n ∈ c.children y, False :=
      ⟨nofun, nofun, trivial⟩
    have nodup : (Comment.fields.map Prod.fst).Nodup := by decide
    exact @Cell.row_spells_encode Empty (fun _ _ => False) Empty.elim _ nodup _ cells
  | declarations =>
    change Json.OfList _ _ (.arr ((x.map (Declaration.map write)).map Declaration.encode))
    rw [List.map_map]
    exact Json.ofList_arr fun d member => Cell.row_spells_encode (by decide) <|
      Declaration.all_row fun n inside => each n (List.mem_flatMap.mpr ⟨d, member, inside⟩)
  | parameters =>
    change Json.OfList _ _ (.arr ((x.map (Parameter.map write)).map Parameter.encode))
    rw [List.map_map]
    exact Json.ofList_arr fun p member => Cell.row_spells_encode (by decide) <|
      Parameter.all_row fun n inside => each n (List.mem_flatMap.mpr ⟨p, member, inside⟩)

theorem Layer.spells_encode {l : Layer ν} (each : ∀ n ∈ l.children, spelled n (write n)) :
    l.Spells spelled (l.map write).encode := by
  obtain ⟨kind, row⟩ := l
  have apart : ∀ name ∈ kind.fields.map Prod.fst,
      Json.under name [("kind", .str kind.name)] = [] := by
    rintro name member
    refine Json.under_eq_nil (List.forall_mem_singleton.mpr ?_)
    rintro rfl
    exact kind.kind_notMem_fields member
  have slots : row.All fun _ s x => s.Spells spelled x (s.encode (s.map write x)) :=
    (Row.all_of_children each).imp fun _ s x _ inside => s.spells_encode x inside
  have fields : row.Named (Slot.Spells spelled) Slot.Vacant ([("kind", .str kind.name)] ++
      (row.map write).encode Slot.encode) := by
    rw [Row.encode_map]
    exact Row.named_encode _ apart kind.nodup_fields slots
  refine ⟨?_, fields⟩
  refine (Json.under_cons_self ..).trans (congrArg _ (Json.under_eq_nil ?_))
  rintro ⟨name, j⟩ member rfl
  refine kind.kind_notMem_fields ?_
  rw [← Row.names_encode Slot.encode (row.map write)]
  exact List.mem_map_of_mem member

end Writing

namespace Node

theorem spelled_toJson (n : Node) : n.Spelled n.toJson := by
  induction n using induction_on_children with
  | step n ih =>
    rw [Spelled, toJson_eq]
    exact Layer.spells_encode fun c child => ⟨child, ih c child⟩

/-- The fields of an object may be put in another order, and others added. -/
theorem Spelled.rearrange {n : Node} {fields added fields' : List (String × Json)}
    (written : n.Spelled (.obj fields)) (apart : ∀ field ∈ added,
      field.1 ≠ "kind" ∧ field.1 ∉ n.kind.fields.map Prod.fst)
    (perm : (fields ++ added).Perm fields') : n.Spelled (.obj fields') := by
  rw [Spelled] at written ⊢
  obtain ⟨kind, named⟩ := written
  have same {name : String} (fresh : ∀ field ∈ added, field.1 ≠ name) :
      (Json.under name fields).Perm (Json.under name fields') := by
    have whole := (perm.filter fun field => field.1 == name).map Prod.snd
    change (Json.under name (fields ++ added)).Perm _ at whole
    rwa [Json.under_append, Json.under_eq_nil fresh, List.append_nil] at whole
  have entry := same fun field member => (apart field member).1
  rw [kind, List.singleton_perm] at entry
  refine ⟨entry.symm, named.imp ?_⟩
  intro name s x member here
  rw [kind_layer] at member
  have value := same fun field present =>
    (ne_of_mem_of_not_mem member (apart field present).2).symm
  rcases here with ⟨j, there, text⟩ | ⟨missing, nothing⟩
  · rw [there, List.singleton_perm] at value
    exact .inl ⟨j, value.symm, text⟩
  · rw [missing, List.nil_perm] at value
    exact .inr ⟨value, nothing⟩

/-- All ways of writing a tree are read alike. The written form is a spelling of it, and stays one
with its fields in another order and others among them; and every spelling, whatever ways are
chosen for the nodes, the records and the flags in it, is read as this tree wherever it stands. -/
theorem spellings_agree (n : Node) :
    n.Spelled n.toJson ∧
    (∀ fields added fields', n.Spelled (.obj fields) →
      (∀ field ∈ added, field.1 ≠ "kind" ∧ field.1 ∉ n.kind.fields.map Prod.fst) →
      (fields ++ added).Perm fields' → n.Spelled (.obj fields')) ∧
    ∀ (place : Place) (j : Json), n.Spelled j → ofJson place j = .ok n :=
  ⟨n.spelled_toJson, fun _ _ _ written => written.rearrange, fun place _ written =>
    written.ofJson_eq place⟩

/-- A function written in many ways at once: its kind behind its fields and one field too many, no
name, arrays in place of objects, an absent label left out, and a flag twice, once in a number. -/
def varied : Json := .obj [
  ("body", .arr [.str "Block", .arr [.obj [("kind", .str "BreakStatement")]]]),
  ("note", .integer 0),
  ("modifiers", .str "0x0c8| ASYNC |0xeA "),
  ("parameters", .arr [.arr [.obj [("text", .str "x"), ("kind", .str "Identifier")],
    .null, .bool true]]),
  ("kind", .str "FunctionDeclaration")]

theorem spellings_agree_varied :
    let n : Node := .functionDeclaration ⟨0xEA⟩ none [⟨.identifier "x", none, true⟩]
      (.scope .block [.breakStatement none])
    n.Spelled varied ∧ ofJson .alone varied = .ok n := by
  intro n
  have flags : Modifiers.Spelled ⟨0xEA⟩ "0x0c8| ASYNC |0xeA ".toList := by
    have low : Text.Hex 0xC8 ['0', 'c', '8'] := (Text.ofHex?_eq_some_iff (by decide)).mp rfl
    have high : Text.Hex 0xEA ['e', 'A'] := (Text.ofHex?_eq_some_iff (by decide)).mp rfl
    have none : ∀ c ∈ ([] : List Char), Text.isBlank c := List.forall_mem_nil _
    have blank : ∀ c ∈ [' '], Text.isBlank c := List.forall_mem_singleton.mpr rfl
    refine .inr ⟨[⟨0xC8⟩, ⟨0x08⟩, ⟨0xEA⟩], [['0', 'x', '0', 'c', '8'], "ASYNC".toList,
      ['0', 'x', 'e', 'A']], ["0x0c8".toList, " ASYNC ".toList, "0xeA ".toList], by decide,
      by decide, ?_, ?_, rfl⟩
    · exact .cons (.number (by decide) (.inl low)) (.cons (.name .asynchronous)
        (.cons (.number (by decide) (.inl high)) .nil))
    · exact .cons ⟨[], [], rfl, none, none⟩ (.cons ⟨[' '], [' '], rfl, blank, blank⟩
        (.cons ⟨[], [' '], rfl, none, blank⟩ .nil))
  have stops : (breakStatement none).Spelled (.obj [("kind", .str "BreakStatement")]) := by
    rw [Spelled]
    exact ⟨rfl, .inr ⟨rfl, rfl⟩, trivial⟩
  have body : (Node.scope .block [.breakStatement none]).Spelled
      (.arr [.str "Block", .arr [.obj [("kind", .str "BreakStatement")]]]) := by
    rw [Spelled]
    exact ⟨rfl, _, [], rfl, ⟨_, rfl, .cons ⟨List.mem_cons_self, stops⟩ .nil⟩, rfl⟩
  have name : (Node.identifier "x").Spelled
      (.obj [("text", .str "x"), ("kind", .str "Identifier")]) := by
    rw [Spelled]
    exact ⟨rfl, .inl ⟨_, rfl, rfl⟩, trivial⟩
  have written : n.Spelled varied := by
    rw [Spelled]
    refine ⟨rfl, .inl ⟨_, rfl, _, rfl, flags⟩, .inr ⟨rfl, rfl⟩, .inl ⟨_, rfl, _, rfl, ?_⟩,
      .inl ⟨_, rfl, ?_⟩, trivial⟩
    · refine .cons ⟨_, _, rfl, ⟨?_, name⟩, _, _, rfl, rfl, _, _, rfl, rfl, rfl⟩ .nil
      exact List.mem_cons_self
    · exact ⟨List.mem_cons_of_mem _ List.mem_cons_self, body⟩
  exact ⟨written, (spellings_agree n).2.2 .alone varied written⟩

end Node
end PureEnum
