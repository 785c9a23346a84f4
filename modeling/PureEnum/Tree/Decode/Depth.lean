import PureEnum.Tree.Decode

/-! Reading does not depend on its bound: a value is read through values below it only, so any
bound above its depth gives the same answer. Hence reading satisfies its own equation. -/
namespace PureEnum

open Json (depth)

variable {ν : Type} {f g : Json → Read ν}

theorem Json.depth_le_of_lookup {name : String} {j : Json} :
    {fields : List (String × Json)} → fields.lookup name = some j → j.depth ≤ depthFields fields
  | (key, x) :: fields, h => by
    rw [depthFields]
    rw [List.lookup_cons] at h
    split at h
    · obtain rfl := Option.some.inj h
      exact Nat.le_max_left ..
    · exact Nat.le_trans (depth_le_of_lookup h) (Nat.le_max_right ..)

theorem Json.mapM_congr {α : Type} {f g : Json → Read α} : {items : List Json} →
    (∀ c ∈ items, f c = g c) → items.mapM f = items.mapM g
  | [], _ => rfl
  | c :: items, h => by
    rw [List.mapM_cons, List.mapM_cons, h c List.mem_cons_self,
      mapM_congr fun d hd => h d (List.mem_cons_of_mem _ hd)]

theorem Json.readList_congr {α : Type} {f g : Json → Read α} {j : Json}
    (h : ∀ c, c.depth < j.depth → f c = g c) : j.readList f = j.readList g := by
  cases j with
  | arr items =>
    exact mapM_congr fun c hc => h c (Nat.lt_succ_of_le (depth_le_of_mem_items hc))
  | _ => rfl

theorem Json.readOption_congr {α : Type} {f g : Json → Read α} {j : Json} (h : f j = g j) :
    j.readOption f = j.readOption g := by
  cases j <;> simp_all [readOption]

namespace Row

variable {σ : Type} {C : σ → Type} {each each' : (s : σ) → Json → Read (C s)}

theorem readNamed_congr (absent : (s : σ) → Option (C s)) {source : List (String × Json)}
    (h : ∀ s j, j.depth ≤ Json.depthFields source → each s j = each' s j) :
    (fields : List (String × σ)) →
      readNamed each absent source fields = readNamed each' absent source fields
  | [] => rfl
  | (name, s) :: fields => by
    simp only [readNamed, readNamed_congr absent h fields]
    cases found : source.lookup name with
    | none => rfl
    | some j => simp only [h s j (Json.depth_le_of_lookup found)]

theorem readListed_congr (count : Nat) : {items : List Json} → (fields : List (String × σ)) →
    (∀ s j, j.depth ≤ Json.depthItems items → each s j = each' s j) →
      readListed each count items fields = readListed each' count items fields
  | [], [], _ => rfl
  | [], _ :: _, _ => rfl
  | _ :: _, [], _ => rfl
  | j :: items, (_, s) :: fields, h => by
    rw [readListed, readListed, h s j (Nat.le_max_left ..),
      readListed_congr count fields fun s j hj => h s j (Nat.le_trans hj (Nat.le_max_right ..))]

end Row

theorem Cell.read_congr {j : Json} (h : ∀ c, c.depth ≤ j.depth → f c = g c) (c : Cell) :
    c.read f j = c.read g j := by
  cases c with
  | node => exact h j (Nat.le_refl _)
  | node? => exact Json.readOption_congr (h j (Nat.le_refl _))
  | _ => rfl

theorem Cell.readRow_congr {j : Json} (h : ∀ c, c.depth < j.depth → f c = g c)
    (fields : List (String × Cell)) : readRow f fields j = readRow g fields j := by
  cases j with
  | obj source =>
    exact Row.readNamed_congr absent (fun s j hj => read_congr
      (fun c hc => h c (Nat.lt_succ_of_le (Nat.le_trans hc hj))) s) fields
  | arr items =>
    exact Row.readListed_congr items.length fields fun s j hj => read_congr
      (fun c hc => h c (Nat.lt_succ_of_le (Nat.le_trans hc hj))) s
  | _ => rfl

theorem Slot.read_congr {j : Json} (h : ∀ c, c.depth ≤ j.depth → f c = g c) (s : Slot) :
    s.read f j = s.read g j := by
  have below : ∀ c, c.depth < j.depth → f c = g c := fun c hc => h c (Nat.le_of_lt hc)
  cases s with
  | cell c => exact Cell.read_congr h c
  | nodes => exact Json.readList_congr below
  | nodes? => exact Json.readOption_congr (Json.readList_congr below)
  | declarations =>
    exact Json.readList_congr fun c hc => congrArg (Declaration.ofRow <$> ·)
      (Cell.readRow_congr (fun d hd => below d (Nat.lt_trans hd hc)) _)
  | parameters =>
    exact Json.readList_congr fun c hc => congrArg (Parameter.ofRow <$> ·)
      (Cell.readRow_congr (fun d hd => below d (Nat.lt_trans hd hc)) _)
  | _ => rfl

theorem Layer.read_congr {j : Json} (h : ∀ c, c.depth < j.depth → f c = g c) (place : Place) :
    Layer.read f place j = Layer.read g place j := by
  have slots : ∀ d, d < j.depth → ∀ s c, c.depth ≤ d → Slot.read f s c = Slot.read g s c :=
    fun d hd s c hc => Slot.read_congr
      (fun e he => h e (Nat.lt_of_le_of_lt (Nat.le_trans he hc) hd)) s
  cases j with
  | obj source =>
    simp only [Layer.read, Kind.read]
    cases source.lookup "kind" with
    | none => rfl
    | some k =>
      dsimp only
      cases Kind.ofJson place k with
      | error e => rfl
      | ok kind =>
        have := Row.readNamed_congr Slot.absent (slots _ (Nat.lt_succ_self _)) kind.fields
        simp [bind, Except.bind, pure, Except.pure, Row.read, this]
  | arr items => cases items with
    | nil => rfl
    | cons k items =>
      simp only [Layer.read, Kind.read]
      cases Kind.ofJson place k with
      | error e => rfl
      | ok kind =>
        have := Row.readListed_congr items.length kind.fields
          (slots _ (Nat.lt_succ_of_le (Nat.le_max_right ..)))
        simp [bind, Except.bind, pure, Except.pure, Row.read, this]
  | _ => rfl

namespace Node

/-- Any two bounds above the depth of a value read it alike. -/
theorem read_stable : {a b : Nat} → {j : Json} → j.depth < a → j.depth < b → (place : Place) →
    read a place j = read b place j
  | _ + 1, _ + 1, _, ha, hb, place => congrArg (Layer.node <$> ·) <| Layer.read_congr (fun _ hc =>
    read_stable (Nat.lt_of_lt_of_le hc (Nat.le_of_lt_succ ha))
      (Nat.lt_of_lt_of_le hc (Nat.le_of_lt_succ hb)) .within) place

/-- Reading a tree is reading one layer of it over the trees within. -/
theorem ofJson_eq (place : Place) (j : Json) :
    ofJson place j = Layer.node <$> Layer.read (ofJson .within) place j :=
  congrArg (Layer.node <$> ·) <| Layer.read_congr
    (fun _ h => read_stable h (Nat.lt_succ_self _) .within) place

end Node
end PureEnum
