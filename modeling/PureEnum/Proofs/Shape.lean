import PureEnum.Proofs.Traversal

/-! The shape of a node: all of it but the subtrees. A node is its shape and its subtrees, and a
traversal runs the effects of the subtrees one after the other and then only fills the shape with
what they gave, in every monad in the same way. -/
namespace PureEnum

instance : Inhabited Node := ⟨.emptyStatement⟩
instance : Inhabited (Edit Node) := ⟨.kept⟩
instance : Inhabited Revision := ⟨⟨default, default⟩⟩

variable {ν μ κ ρ τ : Type}

/-- Effects in front of a rule that only sees how many values they gave. -/
theorem bind_mapM_congr {m : Type → Type} [Monad m] [LawfulMonad m] {f : ν → m μ} {xs : List ν}
    {next other : List μ → m κ} (same : ∀ ys, ys.length = xs.length → next ys = other ys) :
    xs.mapM f >>= next = xs.mapM f >>= other := by
  induction xs generalizing next other with
  | nil => simpa using same [] rfl
  | cons x xs ih =>
    simp only [List.mapM_cons, bind_assoc, pure_bind]
    congr 1
    funext y
    apply ih
    intro ys length
    exact same (y :: ys) (by simp [length])

/-- A rule that may run in every monad. -/
abbrev Rule (ν μ κ : Type) : Type 1 := (m : Type → Type) → [Monad m] → (ν → m μ) → m κ

/-- A rule that runs one effect for each of some nodes, in order, and makes a value of what they
give. What is known of the value is known however the effects went. -/
def Yields (cs : List ν) (rule : Rule ν μ κ) (P : List μ → κ → Prop) : Prop :=
  ∃ value : List μ → κ, (∀ ys, ys.length = cs.length → P ys (value ys)) ∧
    ∀ (m : Type → Type) [Monad m] [LawfulMonad m] (f : ν → m μ), rule m f = value <$> cs.mapM f

theorem Yields.imp {cs : List ν} {rule : Rule ν μ κ} {P Q : List μ → κ → Prop}
    (yields : Yields cs rule P) (imp : ∀ ys x, P ys x → Q ys x) : Yields cs rule Q := by
  obtain ⟨value, known, ran⟩ := yields
  exact ⟨value, fun ys length => imp _ _ (known ys length), ran⟩

theorem yields_pure {P : List μ → κ → Prop} (x : κ) (holds : P [] x) :
    Yields ([] : List ν) (fun _ _ _ => pure x) P := by
  refine ⟨fun _ => x, fun ys length => ?_, fun m _ _ f => by simp⟩
  rw [List.length_eq_zero_iff.mp length]
  exact holds

theorem yields_one [Inhabited μ] {P : List μ → μ → Prop} (c : ν) (holds : ∀ y, P [y] y) :
    Yields [c] (fun _ _ f => f c) P := by
  refine ⟨fun ys => ys.headD default, fun ys length => ?_, fun m _ _ f => by simp⟩
  obtain ⟨y, rfl⟩ := List.length_eq_one_iff.mp length
  exact holds y

/-- What is known of two values is known of the two parts of what they are made of. -/
theorem known_joined {cs ds : List ν} {value : List μ → κ} {other : List μ → ρ}
    {P : List μ → κ → Prop} {Q : List μ → ρ → Prop} {R : List μ → τ → Prop} {join : κ → ρ → τ}
    (known : ∀ ys, ys.length = cs.length → P ys (value ys))
    (alsoKnown : ∀ ys, ys.length = ds.length → Q ys (other ys))
    (joins : ∀ ys x zs y, P ys x → Q zs y → R (ys ++ zs) (join x y)) (ys : List μ)
    (length : ys.length = (cs ++ ds).length) :
    R ys (join (value (ys.take cs.length)) (other (ys.drop cs.length))) := by
  rw [List.length_append] at length
  have parts := joins _ _ _ _ (known (ys.take cs.length) (by simp [length]))
    (alsoKnown (ys.drop cs.length) (by simp [length]))
  rwa [List.take_append_drop] at parts

/-- Two rules one after the other. -/
theorem Yields.both {cs ds : List ν} {first : Rule ν μ κ} {second : Rule ν μ ρ}
    {P : List μ → κ → Prop} {Q : List μ → ρ → Prop} {R : List μ → τ → Prop} (join : κ → ρ → τ)
    (yields : Yields cs first P) (follows : Yields ds second Q)
    (joins : ∀ ys x zs y, P ys x → Q zs y → R (ys ++ zs) (join x y)) :
    Yields (cs ++ ds)
      (fun m _ f => first m f >>= fun x => second m f >>= fun y => pure (join x y)) R := by
  obtain ⟨value, known, ran⟩ := yields
  obtain ⟨other, alsoKnown, alsoRan⟩ := follows
  refine ⟨_, known_joined known alsoKnown joins, fun m _ _ f => ?_⟩
  simp only [ran, alsoRan, List.mapM_append, map_eq_pure_bind, bind_assoc, pure_bind]
  apply bind_mapM_congr
  intro ys length
  simp [← length]

theorem Yields.map {cs : List ν} {rule : Rule ν μ κ} {P : List μ → κ → Prop}
    {Q : List μ → ρ → Prop} (value : κ → ρ) (yields : Yields cs rule P)
    (maps : ∀ ys x, P ys x → Q ys (value x)) :
    Yields cs (fun m _ f => rule m f >>= fun x => pure (value x)) Q := by
  obtain ⟨before, known, ran⟩ := yields
  refine ⟨fun ys => value (before ys), fun ys length => maps _ _ (known ys length),
    fun m _ _ f => ?_⟩
  simp only [ran, map_eq_pure_bind, bind_assoc, pure_bind]

theorem Yields.of_eq {cs : List ν} {rule other : Rule ν μ κ} {P : List μ → κ → Prop}
    (yields : Yields cs rule P) (same : ∀ (m : Type → Type) [Monad m] [LawfulMonad m] (f : ν → m μ),
      other m f = rule m f) : Yields cs other P := by
  obtain ⟨value, known, ran⟩ := yields
  exact ⟨value, known, fun m _ _ f => (same m f).trans (ran m f)⟩

theorem yields_list (xs : List ν) : Yields xs (fun _ _ f => xs.mapM f)
    fun ys (items : List μ) => items = ys ∧ items.length = xs.length :=
  ⟨id, fun _ length => ⟨rfl, length⟩, fun m _ _ f => by simp⟩

/-- The items of a list one after the other. -/
theorem yields_mapM {sub : ρ → List ν} {rule : ρ → Rule ν μ κ} {back : κ → List μ}
    {shape : κ → τ} {was : ρ → τ} (xs : List ρ)
    (each : ∀ x, Yields (sub x) (rule x) fun ys y => back y = ys ∧ shape y = was x) :
    Yields (xs.flatMap sub) (fun m _ f => xs.mapM fun x => rule x m f)
      (fun ys items => items.flatMap back = ys ∧ items.map shape = xs.map was) := by
  induction xs with
  | nil => exact yields_pure [] ⟨rfl, rfl⟩
  | cons x xs ih =>
    have joined := (each x).both List.cons ih (R := fun ys items => items.flatMap back = ys ∧
      items.map shape = (x :: xs).map was) (by
        rintro _ _ _ _ ⟨rfl, head⟩ ⟨rfl, tail⟩
        exact ⟨List.flatMap_cons, by rw [List.map_cons, head, tail, List.map_cons]⟩)
    exact joined.of_eq fun m _ _ f => List.mapM_cons

/-- Items of the same shapes with the same subtrees in all are the same items. -/
theorem eq_of_map_flatMap {sub : ρ → List ν} {shape : ρ → τ}
    (count : ∀ x y, shape x = shape y → (sub x).length = (sub y).length)
    (whole : ∀ x y, shape x = shape y → sub x = sub y → x = y) {xs ys : List ρ}
    (shapes : xs.map shape = ys.map shape) (subtrees : xs.flatMap sub = ys.flatMap sub) :
    xs = ys := by
  induction xs generalizing ys with
  | nil => exact (List.map_eq_nil_iff.mp shapes.symm).symm
  | cons x xs ih =>
    cases ys with
    | nil => exact absurd shapes (List.cons_ne_nil _ _)
    | cons y ys =>
      obtain ⟨head, tail⟩ := List.cons.inj shapes
      obtain ⟨first, rest⟩ := List.append_inj subtrees (count x y head)
      rw [whole x y head first, ih tail rest]

theorem toList_inj {x y : Option ν} (same : x.toList = y.toList) : x = y := by
  cases x <;> cases y <;> simp_all

theorem yields_option [Inhabited μ] (x : Option ν) : Yields x.toList (fun _ _ f => x.mapM f)
    fun ys (y : Option μ) => y.toList = ys ∧ y.map (fun _ => ()) = x.map fun _ => () := by
  cases x with
  | none => exact yields_pure none ⟨rfl, rfl⟩
  | some c =>
    have one : Yields [c] (fun _ _ f => f c) fun ys (y : μ) => [y] = ys :=
      yields_one c fun _ => rfl
    have wrapped : Yields [c] (fun _ _ f => f c >>= fun y => pure (some y))
        fun ys (y : Option μ) => y.toList = ys ∧ y.map (fun _ => ()) = some () :=
      one.map some fun _ _ same => ⟨same, rfl⟩
    exact wrapped.of_eq fun m _ _ f => map_eq_pure_bind some (f c)

namespace Declaration

def shape (d : Declaration ν) : Declaration Unit := d.map fun _ => ()

theorem eq_of_shape {d e : Declaration ν} (same : d.shape = e.shape)
    (subtrees : d.children = e.children) : d = e := by
  obtain ⟨name, initializer⟩ := d
  obtain ⟨other, value⟩ := e
  obtain ⟨rfl, behind⟩ := List.cons.inj subtrees
  exact congrArg (Declaration.mk name) (toList_inj behind)

theorem length_children {d : Declaration ν} {e : Declaration μ} (same : d.shape = e.shape) :
    d.children.length = e.children.length := by
  have count := congrArg (fun shape => shape.children.length) same
  simpa only [shape, children_map, List.length_map] using count

theorem yields [Inhabited μ] (d : Declaration ν) : Yields d.children (fun _ _ f => d.traverse f)
    fun ys (e : Declaration μ) => e.children = ys ∧ e.shape = d.shape := by
  have name : Yields [d.name] (fun _ _ f => f d.name) fun ys (y : μ) => [y] = ys :=
    yields_one _ fun _ => rfl
  refine name.both Declaration.mk (yields_option d.initializer) ?_
  rintro _ name _ initializer rfl ⟨rfl, same⟩
  exact ⟨rfl, congrArg (Declaration.mk ()) same⟩

end Declaration

namespace Parameter

def shape (p : Parameter ν) : Parameter Unit := p.map fun _ => ()

theorem eq_of_shape {p q : Parameter ν} (same : p.shape = q.shape)
    (subtrees : p.children = q.children) : p = q := by
  obtain ⟨name, initializer, rest⟩ := p
  obtain ⟨other, value, last⟩ := q
  obtain ⟨rfl, behind⟩ := List.cons.inj subtrees
  obtain rfl : rest = last := congrArg Parameter.rest same
  exact congrArg (Parameter.mk name · rest) (toList_inj behind)

theorem length_children {p : Parameter ν} {q : Parameter μ} (same : p.shape = q.shape) :
    p.children.length = q.children.length := by
  have count := congrArg (fun shape => shape.children.length) same
  simpa only [shape, children_map, List.length_map] using count

theorem yields [Inhabited μ] (p : Parameter ν) : Yields p.children (fun _ _ f => p.traverse f)
    fun ys (q : Parameter μ) => q.children = ys ∧ q.shape = p.shape := by
  have name : Yields [p.name] (fun _ _ f => f p.name) fun ys (y : μ) => [y] = ys :=
    yields_one _ fun _ => rfl
  refine name.both (Parameter.mk · · p.rest) (yields_option p.initializer) ?_
  rintro _ name _ initializer rfl ⟨rfl, same⟩
  exact ⟨rfl, congrArg (Parameter.mk () · p.rest) same⟩

end Parameter

/-- Lists without content differ in their lengths only. -/
theorem units {xs : List ν} {ys : List μ} (same : ys.length = xs.length) :
    ys.map (fun _ => ()) = xs.map fun _ => () := by
  rw [List.map_const', List.map_const', same]

namespace Slot

def shape (s : Slot) (x : s.Content ν) : s.Content Unit := s.map (fun _ => ()) x

theorem length_children {s : Slot} {x : s.Content ν} {y : s.Content μ}
    (same : s.shape x = s.shape y) : (s.children x).length = (s.children y).length := by
  have count := congrArg (fun shape => (s.children shape).length) same
  simpa only [shape, children_map, List.length_map] using count

theorem eq_of_shape {s : Slot} {x y : s.Content ν} (same : s.shape x = s.shape y)
    (subtrees : s.children x = s.children y) : x = y := by
  match s, x, y with
  | .cell .node, x, y => exact (List.cons.inj subtrees).1
  | .cell .node?, x, y => exact toList_inj subtrees
  | .nodes, x, y => exact subtrees
  | .nodes?, x, y => cases x <;> cases y <;> simp_all [shape, map, children]
  | .declarations, ds, es =>
    exact eq_of_map_flatMap (fun _ _ => Declaration.length_children)
      (fun _ _ => Declaration.eq_of_shape) same subtrees
  | .parameters, ps, qs =>
    exact eq_of_map_flatMap (fun _ _ => Parameter.length_children)
      (fun _ _ => Parameter.eq_of_shape) same subtrees
  | .cell .text, _, _ | .cell .flag, _, _ | .text?, _, _ | .texts, _, _ | .modifiers, _, _
  | .keyword, _, _ | .comment, _, _ => exact same

theorem yields [Inhabited μ] (s : Slot) (x : s.Content ν) :
    Yields (s.children x) (fun _ _ f => s.traverse f x)
      fun ys (y : s.Content μ) => s.children y = ys ∧ s.shape y = s.shape x := by
  match s, x with
  | .cell .node, x => exact yields_one x fun y => ⟨rfl, rfl⟩
  | .cell .node?, x => exact yields_option x
  | .nodes, xs => exact (yields_list xs).imp fun ys items known => ⟨known.1, units known.2⟩
  | .nodes?, none => exact yields_pure none ⟨rfl, rfl⟩
  | .nodes?, some xs =>
    have wrapped : Yields xs (fun _ _ f => xs.mapM f >>= fun items => pure (some items))
        fun ys (y : Option (List μ)) => nodes?.children y = ys ∧
          nodes?.shape y = nodes?.shape (some xs) :=
      (yields_list xs).map some fun _ _ known => ⟨known.1, congrArg some (units known.2)⟩
    exact wrapped.of_eq fun m _ _ f => map_eq_pure_bind some (xs.mapM f)
  | .declarations, ds => exact yields_mapM ds Declaration.yields
  | .parameters, ps => exact yields_mapM ps Parameter.yields
  | .cell .text, x => exact yields_pure x ⟨rfl, rfl⟩
  | .cell .flag, x => exact yields_pure x ⟨rfl, rfl⟩
  | .text?, x => exact yields_pure x ⟨rfl, rfl⟩
  | .texts, x => exact yields_pure x ⟨rfl, rfl⟩
  | .modifiers, x => exact yields_pure x ⟨rfl, rfl⟩
  | .keyword, x => exact yields_pure x ⟨rfl, rfl⟩
  | .comment, x => exact yields_pure x ⟨rfl, rfl⟩

end Slot

namespace Row

def shape {fields : List (String × Slot)} (row : Row (Slot.Content ν) fields) :
    Row (Slot.Content Unit) fields := row.map fun _ => ()

theorem eq_of_shape : {fields : List (String × Slot)} → {row other : Row (Slot.Content ν) fields} →
    row.shape = other.shape → row.children = other.children → row = other
  | [], (), (), _, _ => rfl
  | field :: _, (x, rest), (y, others), same, subtrees => by
    obtain ⟨first, behind⟩ := Prod.mk.inj same
    obtain ⟨head, tail⟩ := List.append_inj subtrees (Slot.length_children first)
    rw [Slot.eq_of_shape first head, eq_of_shape behind tail]

theorem yields [Inhabited μ] : {fields : List (String × Slot)} →
    (row : Row (Slot.Content ν) fields) → Yields row.children (fun _ _ f => row.traverse f)
      fun ys (filled : Row (Slot.Content μ) fields) =>
        filled.children = ys ∧ filled.shape = row.shape
  | [], () => yields_pure () ⟨rfl, rfl⟩
  | field :: _, (x, rest) => by
    refine (field.2.yields x).both Prod.mk (yields rest) ?_
    rintro _ y _ others ⟨rfl, first⟩ ⟨rfl, behind⟩
    exact ⟨rfl, Prod.ext first behind⟩

end Row

namespace Layer

def shape (l : Layer ν) : Layer Unit := l.map fun _ => ()

@[simp] theorem shape_map (f : ν → μ) (l : Layer ν) : (l.map f).shape = l.shape := map_map ..

theorem eq_of_shape {l k : Layer ν} (same : l.shape = k.shape)
    (subtrees : l.children = k.children) : l = k := by
  obtain ⟨kind, row⟩ := l
  obtain ⟨other, behind⟩ := k
  obtain rfl : kind = other := congrArg Layer.kind same
  exact congrArg (Layer.mk kind) (Row.eq_of_shape (eq_of_heq (Layer.mk.inj same).2) subtrees)

/-- A traversal fills the shape with what the subtrees gave, in their order. -/
theorem yields [Inhabited μ] (l : Layer ν) : Yields l.children (fun _ _ f => l.traverse f)
    fun ys (filled : Layer μ) => filled.children = ys ∧ filled.shape = l.shape := by
  refine (Row.yields l.row).map (Layer.mk l.kind) ?_
  rintro _ row ⟨rfl, same⟩
  exact ⟨rfl, congrArg (Layer.mk l.kind) same⟩

end Layer

/-- A traversal whose visits settle settles, and what it notes comes in the order of the
subtrees. -/
theorem Gather.settles_layer [Inhabited μ] {visit : ν → Gather μ} {value : ν → μ}
    {events : ν → List Event} (l : Layer ν)
    (settled : ∀ c ∈ l.children, Settles (visit c) (value c) (events c)) :
    Settles (l.traverse visit) (l.map value) (l.children.flatMap events) := by
  obtain ⟨fill, known, ran⟩ := l.yields (μ := μ)
  have traversed : l.traverse visit = fill <$> l.children.mapM visit := ran Gather visit
  obtain ⟨subtrees, shape⟩ := known (l.children.map value) (List.length_map ..)
  have filled : fill (l.children.map value) = l.map value := by
    apply Layer.eq_of_shape
    · rw [shape, Layer.shape_map]
    · rw [subtrees, Layer.children_map]
  rw [traversed, map_eq_pure_bind, ← filled]
  exact (settles_mapM l.children settled).map fill

end PureEnum
