import PureEnum.Proofs.Scan

/-! Order: where the enums stand that a visit notes, and that it notes them from the inside out. A
place is told by child numbers from the root, as the input has them. What is noted one after the
other stands at different places, and nothing is noted after an enum in whose run it stands. -/
namespace PureEnum

/-- The node at the end of a way down, which is told by the numbers of the children gone to. -/
def Node.descend? (n : Node) : List Nat → Option Node
  | [] => some n
  | i :: way => n.children[i]?.bind fun c => c.descend? way

/-- An enum with its place: the way to its scope, and which child of the scope its anchor is. -/
structure Report where
  way : List Nat
  anchor : Nat
  discovery : Gather.Discovery

namespace Report

def length (r : Report) : Nat := r.discovery.candidate.run.length

def Holds (t : Node) (r : Report) : Prop := ∃ head statements index,
  t.descend? r.way = some (.scope head statements) ∧ r.anchor = head.children.length + index ∧
    Candidate.at? statements index = some r.discovery.candidate

def InRun (inner outer : Report) : Prop := ∃ number,
  outer.anchor < number ∧ number ≤ outer.anchor + outer.length ∧
    outer.way ++ [number] <+: inner.way

def Before (earlier later : Report) : Prop :=
  (earlier.way, earlier.anchor) ≠ (later.way, later.anchor) ∧ ¬ later.InRun earlier

def first (r : Report) : Nat := r.way.headD r.anchor

def last (r : Report) : Nat := r.way.headD (r.anchor + r.length)

theorem first_le_last (r : Report) : r.first ≤ r.last := by
  unfold first last
  cases r.way with
  | nil => exact Nat.le_add_right ..
  | cons => exact Nat.le_refl _

/-- Enums in different children of the root may be noted in the order of the children. -/
theorem before_of_lt {earlier later : Report} (apart : earlier.last < later.first) :
    earlier.Before later := by
  have starts := earlier.first_le_last
  obtain ⟨way, anchor, _⟩ := earlier
  obtain ⟨behind, other, _⟩ := later
  constructor
  · intro same
    obtain ⟨rfl, rfl⟩ := Prod.mk.inj same
    exact absurd (Nat.lt_of_le_of_lt starts apart) (Nat.lt_irrefl _)
  · rintro ⟨number, -, within, rest, same⟩
    cases way with
    | nil =>
      subst same
      exact absurd (Nat.lt_of_le_of_lt within apart) (Nat.lt_irrefl _)
    | cons =>
      subst same
      exact absurd apart (Nat.lt_irrefl _)

def under (number : Nat) (r : Report) : Report := { r with way := number :: r.way }

theorem Holds.under {n c : Node} {r : Report} {number : Nat} (holds : r.Holds c)
    (child : n.children[number]? = some c) : (r.under number).Holds n := by
  obtain ⟨head, statements, index, down, place⟩ := holds
  refine ⟨head, statements, index, ?_, place⟩
  rw [Report.under, Node.descend?, child]
  exact down

theorem Before.under {earlier later : Report} (before : earlier.Before later) (number : Nat) :
    (earlier.under number).Before (later.under number) := by
  obtain ⟨apart, outside⟩ := before
  constructor
  · intro same
    obtain ⟨ways, anchors⟩ := Prod.mk.inj same
    exact apart (Prod.ext (List.cons.inj ways).2 anchors)
  · rintro ⟨inside, above, below, leads⟩
    exact outside ⟨inside, above, below, (List.cons_prefix_cons.mp leads).2⟩

end Report

/-- Enums to which places can be given, in an order in which they may be noted. -/
def Charted (n : Node) (found : List Gather.Discovery) : Prop :=
  ∃ reports : List Report, reports.map Report.discovery = found ∧ (∀ r ∈ reports, r.Holds n) ∧
    reports.Pairwise Report.Before

def ChartedIn (n : Node) (low high : Nat) (found : List Gather.Discovery) : Prop :=
  ∃ reports : List Report, reports.map Report.discovery = found ∧
    (∀ r ∈ reports, r.Holds n ∧ low ≤ r.first ∧ r.last < high) ∧ reports.Pairwise Report.Before

section Charts

variable {n c : Node} {low middle high number : Nat}
variable {found others : List Gather.Discovery}

theorem charted_nil (n : Node) : Charted n [] := ⟨[], rfl, List.forall_mem_nil _, .nil⟩

namespace ChartedIn

theorem charted (within : ChartedIn n low high found) : Charted n found := by
  obtain ⟨reports, told, placed, ordered⟩ := within
  exact ⟨reports, told, fun r member => (placed r member).1, ordered⟩

theorem nil (n : Node) (low high : Nat) : ChartedIn n low high [] :=
  ⟨[], rfl, List.forall_mem_nil _, .nil⟩

theorem mono {lower : Nat} (within : ChartedIn n low high found) (below : lower ≤ low) :
    ChartedIn n lower high found := by
  obtain ⟨reports, told, placed, ordered⟩ := within
  refine ⟨reports, told, fun r member => ?_, ordered⟩
  obtain ⟨holds, starts, ends⟩ := placed r member
  exact ⟨holds, Nat.le_trans below starts, ends⟩

/-- Charts of children one after the other are one chart. -/
theorem append (left : ChartedIn n low middle found) (right : ChartedIn n middle high others)
    (ordered : low ≤ middle) (bounded : middle ≤ high) :
    ChartedIn n low high (found ++ others) := by
  obtain ⟨before, toldBefore, placedBefore, orderedBefore⟩ := left
  obtain ⟨behind, toldBehind, placedBehind, orderedBehind⟩ := right
  refine ⟨before ++ behind, by rw [List.map_append, toldBefore, toldBehind],
    List.forall_mem_append.mpr ⟨fun r member => ?_, fun r member => ?_⟩,
    List.pairwise_append.mpr ⟨orderedBefore, orderedBehind, fun r member later inside => ?_⟩⟩
  · obtain ⟨holds, starts, ends⟩ := placedBefore r member
    exact ⟨holds, starts, Nat.lt_of_lt_of_le ends bounded⟩
  · obtain ⟨holds, starts, ends⟩ := placedBehind r member
    exact ⟨holds, Nat.le_trans ordered starts, ends⟩
  · exact Report.before_of_lt
      (Nat.lt_of_lt_of_le (placedBefore r member).2.2 (placedBehind later inside).2.1)

end ChartedIn

theorem Charted.child (charted : Charted c found) (child : n.children[number]? = some c) :
    ChartedIn n number (number + 1) found := by
  obtain ⟨reports, told, holds, ordered⟩ := charted
  refine ⟨reports.map (Report.under number), ?_, List.forall_mem_map.mpr fun r member => ?_,
    List.pairwise_map.mpr (ordered.imp fun before => before.under number)⟩
  · rw [List.map_map, ← told]
    rfl
  · exact ⟨(holds r member).under child, Nat.le_refl _, Nat.lt_succ_self _⟩

/-- Charts of some children next to each other are one chart. -/
theorem Charted.children (told : Node → List Gather.Discovery) (before : List Node)
    {nodes behind : List Node} (children : n.children = before ++ (nodes ++ behind))
    (charted : ∀ c ∈ nodes, Charted c (told c)) :
    ChartedIn n before.length (before.length + nodes.length) (nodes.flatMap told) := by
  induction nodes generalizing before with
  | nil => exact .nil ..
  | cons c nodes ih =>
    obtain ⟨own, others⟩ := List.forall_mem_cons.mp charted
    have first : n.children[before.length]? = some c := by simp [children]
    have rest := ih (before ++ [c]) (by simp [children]) others
    rw [List.length_append, List.length_singleton] at rest
    rw [List.flatMap_cons, List.length_cons, Nat.add_comm nodes.length, ← Nat.add_assoc]
    exact (own.child first).append rest (Nat.le_succ _) (Nat.le_add_right ..)

theorem Charted.skipParens {e : Node} (charted : Charted e.skipParens found) :
    Charted e found := by
  induction e using Node.skipParens.induct with
  | case1 inner ih =>
    rw [Node.skipParens] at charted
    have first : (Node.parenthesizedExpression inner).children[0]? = some inner := rfl
    exact ((ih charted).child first).charted
  | case2 e other =>
    rwa [Node.skipParens] at charted
    exact other

/-- An enum may be noted after what its run holds. -/
theorem ChartedIn.enum {head : ScopeHead Node} {statements : List Node} {index : Nat}
    {d : Gather.Discovery} (stands : Candidate.at? statements index = some d.candidate)
    (inside : ChartedIn (.scope head statements) (head.children.length + index + 1)
      (head.children.length + index + 1 + d.candidate.run.length) found) :
    ChartedIn (.scope head statements) (head.children.length + index)
      (head.children.length + index + 1 + d.candidate.run.length) (found ++ [d]) := by
  obtain ⟨reports, told, placed, ordered⟩ := inside
  have holds : Report.Holds (.scope head statements) ⟨[], head.children.length + index, d⟩ :=
    ⟨head, statements, index, rfl, rfl, stands⟩
  refine ⟨reports ++ [⟨[], head.children.length + index, d⟩], by simp [told],
    List.forall_mem_append.mpr ⟨fun r member => ?_, List.forall_mem_singleton.mpr ?_⟩,
    List.pairwise_append.mpr ⟨ordered, List.pairwise_singleton .., fun r member => ?_⟩⟩
  · obtain ⟨holds, starts, ends⟩ := placed r member
    exact ⟨holds, Nat.le_of_succ_le starts, ends⟩
  · refine ⟨holds, Nat.le_refl _, ?_⟩
    simp only [Report.last, Report.length, List.headD_nil]
    omega
  · refine List.forall_mem_singleton.mpr ⟨fun same => ?_, ?_⟩
    · have starts := (placed r member).2.1
      obtain ⟨way, anchor⟩ := Prod.mk.inj same
      rw [Report.first, way, anchor] at starts
      exact absurd starts (Nat.not_succ_le_self _)
    · rintro ⟨_, -, -, leads⟩
      exact absurd (List.prefix_nil.mp leads) (by simp)

end Charts

namespace Gather

variable {depth : Nat}

/-- Charts of the parts of a run give a chart of its statements. -/
theorem charted_parts (charted : ∀ n, Charted n (noted depth n)) {c : Candidate}
    {run rest : List Node} (fits : c.Fits run rest) {n : Node} {before : List Node}
    (children : n.children = before ++ (run ++ rest)) :
    ChartedIn n before.length (before.length + c.run.length)
      (c.run.parts.flatMap (noted depth)) := by
  rw [← fits.length_eq]
  cases fits with
  | wrapper found =>
    obtain ⟨e, _, _, _, _, _, _, rfl, rfl, _⟩ := Enum.wrapperCall?_eq_some.mp found
    have first : (Node.expressionStatement e).children[0]? = some e := rfl
    have statement := ((charted e.skipParens).skipParens.child first).charted
    have placed := Charted.children (fun _ => noted depth e.skipParens) before children
      (List.forall_mem_singleton.mpr statement)
    simpa [Run.parts] using placed
  | flat | fixed => exact Charted.children (noted depth) before children fun s _ => charted s

/-- What a list notes from some place on has a chart behind that place. The induction is on the cut
of the rest, as the walk goes. -/
theorem charted_walk (charted : ∀ n, Charted n (noted depth n)) (head : ScopeHead Node)
    {rest : List Node} {segments : List Segment} (cut : Segmented rest segments)
    (before : List Node) : ChartedIn (.scope head (before ++ rest))
      (head.children.length + before.length) (head.children.length + before.length + rest.length)
      (segments.flatMap fun g => g.parts.flatMap (noted depth) ++
        g.candidates.map (Discovery.mk · depth)) := by
  induction cut generalizing before with
  | nil => exact .nil ..
  | @pinned rest _ s _ _ ih =>
    have follows := ih (before ++ [s])
    simp only [List.append_assoc, List.singleton_append, List.length_append,
      List.length_singleton] at follows
    rw [List.length_cons, Nat.add_comm rest.length, ← Nat.add_assoc]
    exact follows.mono (Nat.le_succ _)
  | @plain rest _ s _ _ _ ih =>
    have follows := ih (before ++ [s])
    simp only [List.append_assoc, List.singleton_append, List.length_append,
      List.length_singleton] at follows
    have children : (Node.scope head (before ++ s :: rest)).children =
        (head.children ++ before) ++ ([s] ++ rest) := by simp [Node.children_scope]
    have own := Charted.children (noted depth) _ children
      (List.forall_mem_singleton.mpr (charted s))
    rw [List.length_append, List.length_singleton] at own
    rw [List.length_cons, Nat.add_comm rest.length, ← Nat.add_assoc, List.flatMap_cons]
    simp only [Segment.parts, Segment.candidates, List.map_nil, List.append_nil]
    exact own.append follows (Nat.le_succ _) (Nat.le_add_right ..)
  | @enum run rest _ c fits _ ih =>
    have follows := ih (before ++ (c.anchor :: run))
    have children : (Node.scope head (before ++ c.anchor :: (run ++ rest))).children =
        (head.children ++ (before ++ [c.anchor])) ++ (run ++ rest) := by simp [Node.children_scope]
    have parts := charted_parts charted fits children
    have stands : Candidate.at? (before ++ c.anchor :: (run ++ rest)) before.length = some c :=
      (at?_behind ..).trans (Candidate.find?_eq_some.mpr ⟨run, rest, rfl, fits⟩)
    have total : (c.anchor :: (run ++ rest)).length = 1 + c.run.length + rest.length := by
      rw [List.length_cons, List.length_append, fits.length_eq]
      omega
    simp only [List.append_assoc, List.cons_append, List.length_append, List.length_cons,
      List.length_nil, fits.length_eq, ← Nat.add_assoc] at follows parts
    have own := parts.enum (d := ⟨c, depth⟩) stands
    dsimp only at own
    rw [Nat.add_right_comm] at follows
    rw [total, ← Nat.add_assoc, ← Nat.add_assoc, List.flatMap_cons]
    exact own.append follows (by omega) (by omega)

/-- A visit notes every enum after those that its run holds. -/
theorem charted (depth : Nat) (n : Node) : Charted n (noted depth n) := by
  induction depth generalizing n with
  | zero => exact charted_nil n
  | succ depth ih =>
    rcases n.scope_or with ⟨head, statements, rfl⟩ | own
    · have test := Charted.children (noted depth) [] (Node.children_scope head statements)
        fun c _ => ih c
      have list := charted_walk ih head (Segment.segmented_ofList statements) []
      simp only [List.length_nil, Nat.zero_add, Nat.add_zero] at test list
      exact (test.append list (Nat.zero_le _) (Nat.le_add_right ..)).charted
    · rw [noted_of_not_scope own]
      have children : n.children = [] ++ (n.children ++ []) := by simp
      exact (Charted.children (noted depth) [] children fun c _ => ih c).charted

end Gather
end PureEnum
