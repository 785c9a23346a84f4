import PureEnum.Proofs.Flags
import PureEnum.Tree.Decode.Depth
import PureEnum.Tree.Encode

/-! The written form of a tree reads as that tree. A row is read back when each of its contents
is, since the names of its fields differ; a slot is read back when the subtrees in it are; and so
a node is, by induction, whatever kind it has. Hence no two trees are written alike, and a value
that can be read at all is brought into its written form by one reading and one writing. -/
namespace PureEnum

/-! ### Rows -/

namespace Row

variable {σ : Type} {C D : σ → Type} {fields : List (String × σ)}

def All (P : String → (s : σ) → C s → Prop) : {fields : List (String × σ)} → Row C fields → Prop
  | [], () => True
  | field :: _, (x, rest) => P field.1 field.2 x ∧ All P rest

theorem All.imp {P Q : String → (s : σ) → C s → Prop} : {fields : List (String × σ)} →
    {row : Row C fields} → row.All P →
    (∀ name s x, name ∈ fields.map Prod.fst → P name s x → Q name s x) → row.All Q
  | [], (), _, _ => trivial
  | _ :: _, (_, _), ⟨first, others⟩, weaker =>
    ⟨weaker _ _ _ List.mem_cons_self first,
      All.imp others fun name s x member => weaker name s x (List.mem_cons_of_mem _ member)⟩

theorem All.and {P Q : String → (s : σ) → C s → Prop} : {fields : List (String × σ)} →
    {row : Row C fields} → row.All P → row.All Q → row.All fun name s x => P name s x ∧ Q name s x
  | [], (), _, _ => trivial
  | _ :: _, (_, _), ⟨p, ps⟩, ⟨q, qs⟩ => ⟨⟨p, q⟩, All.and ps qs⟩

/-- A field is read from an object when its value is there and can be read, or when it may be left
out and is. -/
theorem readNamed_eq_ok {each : (s : σ) → Json → Read (C s)} {absent : (s : σ) → Option (C s)}
    {source : List (String × Json)} : {fields : List (String × σ)} → {row : Row C fields} →
    (row.All fun name s x => (∃ j, source.lookup name = some j ∧ each s j = .ok x) ∨
      source.lookup name = none ∧ absent s = some x) →
    readNamed each absent source fields = .ok row
  | [], (), _ => rfl
  | (name, s) :: fields, (x, rest), ⟨first, others⟩ => by
    rw [readNamed, readNamed_eq_ok others]
    rcases first with ⟨j, there, reads⟩ | ⟨missing, default⟩
    · rw [there]
      change (each s j >>= _) = _
      rw [reads]
      rfl
    · rw [missing]
      simp only [default]
      rfl

/-- The value of a field stands under its name, as no other field has that name. -/
theorem lookup_encode (write : (s : σ) → C s → Json) : {fields : List (String × σ)} →
    (row : Row C fields) → (fields.map Prod.fst).Nodup →
    row.All fun name s x => (row.encode write).lookup name = some (write s x)
  | [], (), _ => trivial
  | (name, s) :: fields, (x, rest), nodup => by
    obtain ⟨fresh, nodup⟩ := List.nodup_cons.mp nodup
    refine ⟨List.lookup_cons_self, (lookup_encode write rest nodup).imp ?_⟩
    intro other s' y member there
    have apart : (other == name) = false := by
      apply beq_false_of_ne
      rintro rfl
      exact fresh member
    rw [encode, List.lookup_cons, apart]
    exact there

/-- A written row is read back content by content, also behind an entry of another name. -/
theorem readNamed_encode {each : (s : σ) → Json → Read (C s)} {absent : (s : σ) → Option (C s)}
    {write : (s : σ) → C s → Json} (front : List (String × Json))
    (apart : ∀ name ∈ fields.map Prod.fst, front.lookup name = none)
    (nodup : (fields.map Prod.fst).Nodup) {row : Row C fields}
    (back : row.All fun _ s x => each s (write s x) = .ok x) :
    readNamed each absent (front ++ row.encode write) fields = .ok row := by
  apply readNamed_eq_ok
  refine ((lookup_encode write row nodup).and back).imp ?_
  rintro name s x member ⟨there, reads⟩
  refine .inl ⟨write s x, ?_, reads⟩
  rw [List.lookup_append, apart name member]
  exact there

/-- No field is left out, and none is added. -/
theorem names_encode (write : (s : σ) → C s → Json) : {fields : List (String × σ)} →
    (row : Row C fields) → (row.encode write).map Prod.fst = fields.map Prod.fst
  | [], () => rfl
  | _ :: _, (_, rest) => congrArg (_ :: ·) (names_encode write rest)

theorem encode_map {ν μ : Type} (f : ν → μ) (write : (s : Slot) → s.Content μ → Json) :
    {fields : List (String × Slot)} → (row : Row (Slot.Content ν) fields) →
    (row.map f).encode write = row.encode fun s x => write s (s.map f x)
  | [], () => rfl
  | _ :: _, (_, rest) => congrArg (_ :: ·) (encode_map f write rest)

/-- What holds of all subtrees of a row holds of those of each content. -/
theorem all_of_children {ν : Type} {P : ν → Prop} : {fields : List (String × Slot)} →
    {row : Row (Slot.Content ν) fields} → (∀ c ∈ row.children, P c) →
    row.All fun _ s x => ∀ c ∈ s.children x, P c
  | [], (), _ => trivial
  | _ :: _, (_, _), each =>
    ⟨fun c member => each c (List.mem_append_left _ member),
      all_of_children fun c member => each c (List.mem_append_right _ member)⟩

end Row

/-! ### Lists and options -/

namespace Json

variable {α : Type} {read : Json → Read α} {write : α → Json}

theorem readList_map {items : List α} (back : ∀ x ∈ items, read (write x) = .ok x) :
    (arr (items.map write)).readList read = .ok items := by
  have each : items.mapM (read ∘ write) = .ok (items.map id) := mapM_eq_ok back
  rw [List.map_id] at each
  rw [readList, List.mapM_map]
  exact each

/-- A present content is not taken for an absent one, as it is not written as null. -/
theorem readOption_map {x : Option α} (full : ∀ y ∈ x, write y ≠ null)
    (back : ∀ y ∈ x, read (write y) = .ok y) :
    ((x.map write).getD null).readOption read = .ok x := by
  cases x with
  | none => rfl
  | some y =>
    have present : (write y).readOption read = some <$> read (write y) := by
      have written := full y rfl
      cases same : write y <;> first | rfl | contradiction
    rw [Option.map_some, Option.getD_some, present, back y rfl]
    rfl

end Json

/-! ### Slots -/

variable {ν : Type} {node : Json → Read ν} {write : ν → Json}

theorem Cell.read_encode (full : ∀ c, write c ≠ .null) :
    (cell : Cell) → (x : cell.Content ν) → (∀ c ∈ cell.children x, node (write c) = .ok c) →
    cell.read node (cell.encode (cell.map write x)) = .ok x
  | .node, _, back => back _ List.mem_cons_self
  | .node?, _, back => Json.readOption_map (fun y _ => full y) fun y present =>
    back y (Option.mem_toList.mpr present)
  | .text, _, _ => rfl
  | .flag, _, _ => rfl

/-- A record is read back from the object of its cells. -/
theorem Cell.readRow_encode (full : ∀ c, write c ≠ .null) {fields : List (String × Cell)}
    (nodup : (fields.map Prod.fst).Nodup) {row : Row (Content ν) fields}
    (back : row.All fun _ cell x => ∀ c ∈ cell.children x, node (write c) = .ok c) :
    readRow node fields (.obj (row.encode fun cell x => cell.encode (cell.map write x))) =
      .ok row :=
  Row.readNamed_encode [] (fun _ _ => rfl) nodup
    (back.imp fun _ cell x _ reads => read_encode full cell x reads)

/-- What holds of all subtrees of a record holds of those of each cell. -/
theorem Declaration.all_row {P : ν → Prop} {d : Declaration ν} (each : ∀ c ∈ d.children, P c) :
    d.row.All fun _ cell x => ∀ c ∈ cell.children x, P c :=
  ⟨fun c member => each c (List.mem_cons.mpr (.inl (List.mem_singleton.mp member))),
    fun c member => each c (List.mem_cons_of_mem _ member), trivial⟩

theorem Parameter.all_row {P : ν → Prop} {p : Parameter ν} (each : ∀ c ∈ p.children, P c) :
    p.row.All fun _ cell x => ∀ c ∈ cell.children x, P c :=
  ⟨fun c member => each c (List.mem_cons.mpr (.inl (List.mem_singleton.mp member))),
    fun c member => each c (List.mem_cons_of_mem _ member), nofun, trivial⟩

theorem Declaration.read_encode (full : ∀ c, write c ≠ .null) {d : Declaration ν}
    (back : ∀ c ∈ d.children, node (write c) = .ok c) :
    Declaration.read node (d.map write).encode = .ok d :=
  congrArg (ofRow <$> ·) (Cell.readRow_encode full (by decide) (all_row back))

theorem Parameter.read_encode (full : ∀ c, write c ≠ .null) {p : Parameter ν}
    (back : ∀ c ∈ p.children, node (write c) = .ok c) :
    Parameter.read node (p.map write).encode = .ok p :=
  congrArg (ofRow <$> ·) (Cell.readRow_encode full (by decide) (all_row back))

theorem Comment.ofJson_toJson (c : Comment) : Comment.ofJson c.toJson = .ok c := by
  let node : Json → Read Empty := fun j => .error (.wrongType j)
  have cells : (c.row (ν := Empty)).All fun _ cell x => ∀ e ∈ cell.children x,
      node e.elim = .ok e := ⟨nofun, nofun, trivial⟩
  exact congrArg (ofRow <$> ·)
    (Cell.readRow_encode (show ∀ e : Empty, e.elim ≠ Json.null from nofun) (by decide) cells)

theorem Modifiers.readModifiers_toJson (m : Modifiers) : m.toJson.readModifiers = .ok m := by
  simp [Json.readModifiers, toJson, Json.readText, ofText_text, bind, Except.bind]

theorem Slot.read_encode (full : ∀ c, write c ≠ .null) (s : Slot) (x : s.Content ν)
    (back : ∀ c ∈ s.children x, node (write c) = .ok c) :
    s.read node (s.encode (s.map write x)) = .ok x := by
  cases s with
  | cell cell => exact cell.read_encode full x back
  | text? => exact Json.readOption_map (fun _ _ => by simp) fun _ _ => rfl
  | texts => exact Json.readList_map fun _ _ => rfl
  | nodes => exact Json.readList_map back
  | nodes? =>
    have present : ∀ items ∈ x, ∀ c ∈ items, node (write c) = .ok c := by
      rintro items rfl
      exact back
    have same : (nodes?).encode ((nodes?).map write x) =
        (x.map fun items => Json.arr (items.map write)).getD .null := by
      cases x <;> rfl
    rw [same]
    exact Json.readOption_map (fun _ _ => by simp) fun items member =>
      Json.readList_map (present items member)
  | modifiers => exact x.readModifiers_toJson
  | keyword => exact Keyword.ofJson_name .within x
  | comment => exact x.ofJson_toJson
  | declarations =>
    change Json.readList _ (.arr ((x.map (Declaration.map write)).map Declaration.encode)) = _
    rw [List.map_map]
    exact Json.readList_map fun d member => Declaration.read_encode full fun c inside =>
      back c (List.mem_flatMap.mpr ⟨d, member, inside⟩)
  | parameters =>
    change Json.readList _ (.arr ((x.map (Parameter.map write)).map Parameter.encode)) = _
    rw [List.map_map]
    exact Json.readList_map fun p member => Parameter.read_encode full fun c inside =>
      back c (List.mem_flatMap.mpr ⟨p, member, inside⟩)

/-! ### Nodes -/

/-- The kind is found under its own entry, whose name no field has. -/
theorem Layer.read_encode (full : ∀ c, write c ≠ .null) (place : Place) {l : Layer ν}
    (back : ∀ c ∈ l.children, node (write c) = .ok c) :
    Layer.read node place (l.map write).encode = .ok l := by
  obtain ⟨kind, row⟩ := l
  have apart : ∀ name ∈ kind.fields.map Prod.fst,
      [("kind", Json.str kind.name)].lookup name = none := by
    intro name member
    have other : (name == "kind") = false := by
      apply beq_false_of_ne
      rintro rfl
      exact kind.kind_notMem_fields member
    rw [List.lookup_cons, other]
    rfl
  have slots : row.All fun _ s x => s.read node (s.encode (s.map write x)) = .ok x :=
    (Row.all_of_children back).imp fun _ s x _ reads => Slot.read_encode full s x reads
  have fields : Row.readNamed (Slot.read node) Slot.absent ([("kind", .str kind.name)] ++
      (row.map write).encode Slot.encode) kind.fields = .ok row := by
    rw [Row.encode_map]
    exact Row.readNamed_encode _ apart kind.nodup_fields slots
  have whole : Kind.read place (Layer.map write ⟨kind, row⟩).encode = .ok (kind, .named
      ([("kind", .str kind.name)] ++ (row.map write).encode Slot.encode)) := by
    change (Kind.ofJson place (.str kind.name) >>= _) = _
    rw [Kind.ofJson_name]
    rfl
  rw [Layer.read, whole]
  change (Row.readNamed _ _ _ kind.fields >>= _) = _
  rw [fields]
  rfl

namespace Node

theorem toJson_ne_null (n : Node) : n.toJson ≠ .null := by
  rw [toJson_eq]
  exact nofun

/-- Every tree is read back from its written form, wherever that stands. -/
theorem ofJson_toJson (place : Place) (n : Node) : ofJson place n.toJson = .ok n := by
  induction n using induction_on_children generalizing place with
  | step n ih =>
    rw [ofJson_eq, toJson_eq, Layer.read_encode toJson_ne_null place (ih · · .within)]
    exact congrArg Except.ok n.node_layer

theorem toJson_injective {a b : Node} (same : a.toJson = b.toJson) : a = b := by
  have read := ofJson_toJson .alone a
  rw [same, ofJson_toJson] at read
  exact (Except.ok.inj read).symm

instance : LawfulBEq Node where
  eq_of_beq same := toJson_injective (eq_of_beq same)
  rfl := beq_self_eq_true (toJson _)

/-- A node is written as an object of its kind and of the fields of that kind. -/
theorem exists_fields_toJson (n : Node) : ∃ fields,
    n.toJson = .obj (("kind", .str n.kind.name) :: fields) ∧
      fields.map Prod.fst = n.kind.fields.map Prod.fst := by
  rw [← kind_layer n, toJson_eq n]
  exact ⟨_, rfl, Row.names_encode _ _⟩

/-- The written form round-trips. It is an object of the kind's name and all fields of the kind,
from which the tree is read back; and a value that is read as a tree, however it is written, gives
a written form that reads as this tree and is written the same again. -/
theorem json_round_trip :
    (∀ n : Node, ∃ fields, n.toJson = .obj (("kind", .str n.kind.name) :: fields) ∧
      fields.map Prod.fst = n.kind.fields.map Prod.fst) ∧
    (∀ (place : Place) (n : Node), ofJson place n.toJson = .ok n) ∧
    ∀ (place again : Place) (j : Json) (n : Node), ofJson place j = .ok n →
      ∃ m, ofJson again n.toJson = .ok m ∧ m = n ∧ m.toJson = n.toJson :=
  ⟨exists_fields_toJson, ofJson_toJson,
    fun _ again _ n _ => ⟨n, ofJson_toJson again n, rfl, rfl⟩⟩

/-- A function as it may be written by hand: fields in another order and one too many, no name,
arrays in place of objects, kinds by their numbers, and flags without a name. -/
def loose : Json := .obj [
  ("body", .arr [.integer 1, .arr [.arr [.str "BreakStatement", .null]]]),
  ("note", .integer 0),
  ("modifiers", .str " ASYNC |0xE1"),
  ("kind", .str "FunctionDeclaration"),
  ("parameters", .arr [.arr [.obj [("text", .str "x"), ("kind", .integer 28)], .null, .bool true]])]

theorem json_round_trip_loose :
    let n : Node := .functionDeclaration ⟨0xE9⟩ none [⟨.identifier "x", none, true⟩]
      (.scope .block [.breakStatement none])
    ofJson .alone loose = .ok n ∧ n.toJson ≠ loose ∧
      ∃ m, ofJson .within n.toJson = .ok m ∧ m = n ∧ m.toJson = n.toJson := by
  intro n
  have reads : ofJson .alone loose = .ok n := rfl
  have other : n.toJson ≠ loose := by
    rw [toJson_eq]
    simp [Layer.encode, loose]
  exact ⟨reads, other, json_round_trip.2.2 .alone .within loose n reads⟩

end Node
end PureEnum
