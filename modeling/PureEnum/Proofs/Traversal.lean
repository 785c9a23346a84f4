import PureEnum.Enum.Gather

/-! Laws of the one-level maps, and gathering actions that settle: from every progress they succeed
with the same value and note the same events. Visits of a list that settle one by one settle
together, and what they note comes in the order of the list. -/
namespace PureEnum

variable {ν μ κ : Type}

namespace Declaration

theorem children_map (f : ν → μ) (d : Declaration ν) : (d.map f).children = d.children.map f := by
  obtain ⟨name, initializer⟩ := d
  cases initializer <;> rfl

theorem map_map (f : ν → μ) (g : μ → κ) (d : Declaration ν) : (d.map f).map g = d.map (g ∘ f) := by
  simp [map]

theorem map_congr {f g : ν → μ} {d : Declaration ν} (same : ∀ c ∈ d.children, f c = g c) :
    d.map f = d.map g := by
  obtain ⟨name, initializer⟩ := d
  cases initializer <;> simp_all [map, children]

theorem map_id (d : Declaration ν) : d.map id = d := by simp [map]

end Declaration

namespace Parameter

theorem children_map (f : ν → μ) (p : Parameter ν) : (p.map f).children = p.children.map f := by
  obtain ⟨name, initializer, rest⟩ := p
  cases initializer <;> rfl

theorem map_map (f : ν → μ) (g : μ → κ) (p : Parameter ν) : (p.map f).map g = p.map (g ∘ f) := by
  simp [map]

theorem map_congr {f g : ν → μ} {p : Parameter ν} (same : ∀ c ∈ p.children, f c = g c) :
    p.map f = p.map g := by
  obtain ⟨name, initializer, rest⟩ := p
  cases initializer <;> simp_all [map, children]

theorem map_id (p : Parameter ν) : p.map id = p := by simp [map]

end Parameter

namespace Slot

theorem children_map (f : ν → μ) (s : Slot) (x : s.Content ν) :
    s.children (s.map f x) = (s.children x).map f := by
  match s, x with
  | .cell .node, x => rfl
  | .cell .node?, none | .cell .node?, some _ => rfl
  | .nodes, _ => rfl
  | .nodes?, none | .nodes?, some _ => rfl
  | .declarations, ds =>
    simp only [children, map, List.flatMap_map, List.map_flatMap, Declaration.children_map]
  | .parameters, ps =>
    simp only [children, map, List.flatMap_map, List.map_flatMap, Parameter.children_map]
  | .cell .text, _ | .cell .flag, _ | .text?, _ | .texts, _ | .modifiers, _ | .keyword, _
  | .comment, _ => rfl

theorem map_map (f : ν → μ) (g : μ → κ) (s : Slot) (x : s.Content ν) :
    s.map g (s.map f x) = s.map (g ∘ f) x := by
  match s, x with
  | .cell .node, _ => rfl
  | .cell .node?, none | .cell .node?, some _ => rfl
  | .nodes, xs => exact List.map_map ..
  | .nodes?, none => rfl
  | .nodes?, some xs => exact congrArg some (List.map_map ..)
  | .declarations, ds => simp [map, Declaration.map_map]
  | .parameters, ps => simp [map, Parameter.map_map]
  | .cell .text, _ | .cell .flag, _ | .text?, _ | .texts, _ | .modifiers, _ | .keyword, _
  | .comment, _ => rfl

theorem map_congr {f g : ν → μ} (s : Slot) (x : s.Content ν)
    (same : ∀ c ∈ s.children x, f c = g c) : s.map f x = s.map g x := by
  match s, x with
  | .cell .node, x => exact same x List.mem_cons_self
  | .cell .node?, none => rfl
  | .cell .node?, some x => exact congrArg some (same x List.mem_cons_self)
  | .nodes, xs => exact List.map_congr_left same
  | .nodes?, none => rfl
  | .nodes?, some xs => exact congrArg some (List.map_congr_left same)
  | .declarations, ds =>
    exact List.map_congr_left fun d member =>
      Declaration.map_congr fun c inside => same c (List.mem_flatMap.mpr ⟨d, member, inside⟩)
  | .parameters, ps =>
    exact List.map_congr_left fun p member =>
      Parameter.map_congr fun c inside => same c (List.mem_flatMap.mpr ⟨p, member, inside⟩)
  | .cell .text, _ | .cell .flag, _ | .text?, _ | .texts, _ | .modifiers, _ | .keyword, _
  | .comment, _ => rfl

theorem map_id (s : Slot) (x : s.Content ν) : s.map id x = x := by
  match s, x with
  | .cell .node, _ => rfl
  | .cell .node?, none | .cell .node?, some _ => rfl
  | .nodes, xs => exact List.map_id xs
  | .nodes?, none => rfl
  | .nodes?, some xs => exact congrArg some (List.map_id xs)
  | .declarations, ds => exact (List.map_congr_left fun d _ => d.map_id).trans (List.map_id ds)
  | .parameters, ps => exact (List.map_congr_left fun p _ => p.map_id).trans (List.map_id ps)
  | .cell .text, _ | .cell .flag, _ | .text?, _ | .texts, _ | .modifiers, _ | .keyword, _
  | .comment, _ => rfl

end Slot

namespace Row

theorem children_map (f : ν → μ) : {fields : List (String × Slot)} →
    (row : Row (Slot.Content ν) fields) → children (map f row) = (children row).map f
  | [], () => rfl
  | _ :: _, (x, rest) => by
    simp only [map, children, List.map_append, Slot.children_map, children_map f rest]

theorem map_map (f : ν → μ) (g : μ → κ) : {fields : List (String × Slot)} →
    (row : Row (Slot.Content ν) fields) → map g (map f row) = map (g ∘ f) row
  | [], () => rfl
  | _ :: _, (x, rest) => by simp only [map, Slot.map_map, map_map f g rest]

theorem map_congr {f g : ν → μ} : {fields : List (String × Slot)} →
    (row : Row (Slot.Content ν) fields) → (∀ c ∈ children row, f c = g c) → map f row = map g row
  | [], (), _ => rfl
  | field :: _, (x, rest), same => by
    simp only [children, List.mem_append] at same
    simp only [map, Slot.map_congr field.2 x fun c h => same c (.inl h),
      map_congr rest fun c h => same c (.inr h)]

theorem map_id : {fields : List (String × Slot)} →
    (row : Row (Slot.Content ν) fields) → map id row = row
  | [], () => rfl
  | _ :: _, (x, rest) => by simp only [map, Slot.map_id, map_id rest]

end Row

namespace Layer

@[simp] theorem children_map (f : ν → μ) (l : Layer ν) : (l.map f).children = l.children.map f :=
  Row.children_map f l.row

theorem map_map (f : ν → μ) (g : μ → κ) (l : Layer ν) : (l.map f).map g = l.map (g ∘ f) :=
  congrArg (Layer.mk l.kind) (Row.map_map f g l.row)

theorem map_congr {f g : ν → μ} {l : Layer ν} (same : ∀ c ∈ l.children, f c = g c) :
    l.map f = l.map g := congrArg (Layer.mk l.kind) (Row.map_congr l.row same)

theorem map_id (l : Layer ν) : l.map id = l := congrArg (Layer.mk l.kind) (Row.map_id l.row)

/-- A map leaves a layer as it is exactly when it leaves every subtree as it is. -/
theorem map_eq_self_iff {f : ν → ν} {l : Layer ν} : l.map f = l ↔ ∀ c ∈ l.children, f c = c := by
  constructor
  · intro same c member
    have children := congrArg Layer.children same
    rw [children_map] at children
    have fixed : l.children.map f = l.children.map id := by simpa using children
    exact List.map_inj_left.mp fixed c member
  · intro same
    exact (map_congr same).trans l.map_id

end Layer

def Event.isEnclosed : Event → Bool
  | .limit _ => false
  | .enclosed .. => true

namespace Progress

/-- Progress after one more event. Only an enclosed enum is counted. -/
def note (p : Progress) (e : Event) : Progress :=
  ⟨if e.isEnclosed then p.enclosed + 1 else p.enclosed, p.events.push e⟩

def record (p : Progress) (events : List Event) : Progress := events.foldl note p

@[simp] theorem record_nil (p : Progress) : p.record [] = p := rfl

theorem record_append (p : Progress) (first second : List Event) :
    p.record (first ++ second) = (p.record first).record second := List.foldl_append ..

theorem enclosed_record (p : Progress) (events : List Event) :
    (p.record events).enclosed = p.enclosed + events.countP Event.isEnclosed := by
  induction events generalizing p with
  | nil => rfl
  | cons e events ih =>
    rw [record, List.foldl_cons, ← record, ih, List.countP_cons]
    cases h : e.isEnclosed <;> simp [note, h]
    omega

theorem events_record (p : Progress) (events : List Event) :
    (p.record events).events = p.events ++ events.toArray := by
  induction events generalizing p with
  | nil => simp
  | cons e events ih =>
    rw [record, List.foldl_cons, ← record, ih, note]
    simp

/-- Progress made one after the other, from the start each time. -/
theorem start_record_append (first second : List Event) :
    start.record (first ++ second) =
      ⟨(start.record first).enclosed + (start.record second).enclosed,
        (start.record first).events ++ (start.record second).events⟩ := by
  have whole : ∀ p : Progress, p = ⟨p.enclosed, p.events⟩ := fun _ => rfl
  rw [whole (start.record (first ++ second))]
  simp only [enclosed_record, events_record, List.countP_append, mk.injEq]
  exact ⟨by simp [start], by simp [start]⟩

end Progress

namespace Gather

/-- An action that always succeeds, with one value and one list of events. -/
def Settles (act : Gather α) (value : α) (events : List Event) : Prop :=
  ∀ p, act.run p = .ok (value, p.record events)

variable {α β : Type}

theorem settles_pure (value : α) : Settles (pure value) value [] := fun _ => rfl

theorem Settles.bind {act : Gather α} {next : α → Gather β} {value : α} {result : β}
    {first second : List Event} (settled : Settles act value first)
    (follows : Settles (next value) result second) :
    Settles (act >>= next) result (first ++ second) := by
  intro p
  rw [StateT.run_bind, settled p, Progress.record_append]
  exact follows _

theorem Settles.map {act : Gather α} {value : α} {events : List Event} (f : α → β)
    (settled : Settles act value events) :
    Settles (act >>= fun a => pure (f a)) (f value) events := by
  intro p
  rw [StateT.run_bind, settled p]
  rfl

/-- The visits of a list settle one after the other. -/
theorem settles_mapM {visit : ν → Gather μ} {value : ν → μ} {events : ν → List Event}
    (xs : List ν) (settled : ∀ x ∈ xs, Settles (visit x) (value x) (events x)) :
    Settles (xs.mapM visit) (xs.map value) (xs.flatMap events) := by
  induction xs with
  | nil => exact settles_pure []
  | cons x xs ih =>
    rw [List.mapM_cons]
    have rest := ih fun y member => settled y (List.mem_cons_of_mem x member)
    exact (settled x List.mem_cons_self).bind (rest.map (value x :: ·))

end Gather
end PureEnum
