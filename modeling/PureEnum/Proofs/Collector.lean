import Mathlib.Algebra.Ring.Int.Defs
import PureEnum.Proofs.Descent

/-! The collector: gathering with a count of open visits that is kept in the state, raised before
a level and lowered after it. All that happens is written down, with what is noted in between. A
collector does what gathering with that much room does, and it has its old count afterwards. -/
namespace PureEnum

inductive Step where
  /-- A node is handed to a visit. -/
  | handed (n : Node)
  | opened
  | closed
  | noted (event : Event)

namespace Step

def event? : Step → Option Event
  | noted event => some event
  | handed _ | opened | closed => none

def change : Step → Int
  | opened => 1
  | closed => -1
  | handed _ | noted _ => 0

end Step

def openVisits (steps : List Step) : Int := (steps.map Step.change).sum

@[simp] theorem openVisits_nil : openVisits [] = 0 := rfl

@[simp] theorem openVisits_cons (s : Step) (steps : List Step) :
    openVisits (s :: steps) = s.change + openVisits steps := by simp [openVisits]

@[simp] theorem openVisits_append (first second : List Step) :
    openVisits (first ++ second) = openVisits first + openVisits second := by simp [openVisits]

structure Collector where
  depth : Nat
  enclosed : Nat
  steps : List Step

namespace Collector

def start : Collector := ⟨0, 0, []⟩

def progress (w : Collector) : Progress := ⟨w.enclosed, (w.steps.filterMap Step.event?).toArray⟩

def take (w : Collector) (s : Step) : Collector := { w with steps := w.steps ++ [s] }

def enter (w : Collector) : Collector := { w.take .opened with depth := w.depth + 1 }

def leave (w : Collector) : Collector := { w.take .closed with depth := w.depth - 1 }

def count (w : Collector) (event : Event) : Collector :=
  { w.take (.noted event) with enclosed := w.enclosed + 1 }

end Collector

/-- The collector is not lost with an error. -/
abbrev Collect := ExceptT WrapError (StateM Collector)

namespace Collect

def enclose (c : Candidate) : Collect Node := do
  let statement ← (ExceptT.mk (pure c.enclosed) : Collect Node)
  modify fun w => w.count (.enclosed c.name c.run.shape c.run.length statement)
  return statement

/-- A level is left again whatever comes of it. -/
def leaving (level : Collect α) : Collect α := ExceptT.mk do
  let outcome ← level.run
  modify Collector.leave
  return outcome

/-- The level of a node, unless as many visits are open as may be. -/
def guarded (n : Node) (level : Collect (Edit Node)) : Collect (Edit Node) := do
  modify fun w => w.take (.handed n)
  let w ← get
  if maxTreeDepth ≤ w.depth then
    set (w.take (.noted (.limit n.kind)))
    return .kept
  else
    set w.enter
    leaving level

def visit : Node → Collect (Edit Node) := Walk.descend enclose guarded

def list (statements : List Node) : Collect (List Revision) :=
  Walk.list enclose visit statements

theorem visit_eq (n : Node) : visit n = guarded n (Walk.node enclose visit n) :=
  Walk.descend_eq enclose guarded n

theorem run_guarded (n : Node) (level : Collect (Edit Node)) (w : Collector) :
    (guarded n level).run.run w = if maxTreeDepth ≤ w.depth then
      (.ok .kept, (w.take (.handed n)).take (.noted (.limit n.kind)))
    else ((level.run.run (w.take (.handed n)).enter).1,
      (level.run.run (w.take (.handed n)).enter).2.leave) := by
  change ((if maxTreeDepth ≤ w.depth then
      set ((w.take (.handed n)).take (.noted (.limit n.kind))) >>= fun _ => pure .kept
    else set (w.take (.handed n)).enter >>= fun _ => leaving level :
      Collect (Edit Node)).run.run (w.take (.handed n))) = _
  split <;> rfl

end Collect

/-! Discipline is told from the steps alone, so it says what happened and not what was counted. It
is kept by putting disciplined steps one behind the other, where the first end as the second
start. -/

/-- Steps that start under some open visits and end under some. Never are more open than may be; a
node that is handed on under as many as may be is noted at once, and any other is opened at once;
and nothing else is noted as a limit. -/
structure Disciplined (first : Int) (steps : List Step) (last : Int) : Prop where
  ends : first + openVisits steps = last
  bounded : ∀ before after, steps = before ++ after → first + openVisits before ≤ maxTreeDepth
  cut : ∀ before n after, steps = before ++ .handed n :: after →
    first + openVisits before = maxTreeDepth → ∃ rest, after = .noted (.limit n.kind) :: rest
  opened : ∀ before n after, steps = before ++ .handed n :: after →
    first + openVisits before < maxTreeDepth → ∃ rest, after = .opened :: rest
  limits : ∀ before kind after, steps = before ++ .noted (.limit kind) :: after →
    ∃ earlier n, before = earlier ++ [.handed n] ∧ n.kind = kind ∧
      first + openVisits earlier = maxTreeDepth

/-- A place in two lists one behind the other is in the first or in the second. -/
theorem append_eq_append_cons {α : Type} {xs ys before after : List α} {x : α}
    (split : xs ++ ys = before ++ x :: after) :
    (∃ rest, xs = before ++ x :: rest ∧ after = rest ++ ys) ∨
      ∃ between, before = xs ++ between ∧ ys = between ++ x :: after := by
  rcases List.append_eq_append_iff.mp split with ⟨between, rfl, rfl⟩ | ⟨rest, rfl, behind⟩
  · exact .inr ⟨between, rfl, rfl⟩
  · cases rest with
    | nil => exact .inr ⟨[], by simp, behind.symm⟩
    | cons y rest =>
      obtain ⟨rfl, rfl⟩ := List.cons.inj behind
      exact .inl ⟨rest, rfl, rfl⟩

theorem singleton_eq_append_cons {α : Type} {before after : List α} {x y : α}
    (split : [x] = before ++ y :: after) : before = [] ∧ y = x ∧ after = [] := by
  cases before <;> simp_all

theorem pair_eq_append_cons {α : Type} {before after : List α} {x y z : α}
    (split : [x, y] = before ++ z :: after) :
    (before = [] ∧ z = x ∧ after = [y]) ∨ (before = [x] ∧ z = y ∧ after = []) := by
  rcases before with _ | ⟨b, _ | ⟨c, before⟩⟩ <;> simp_all

namespace Disciplined

variable {first middle last : Int} {steps others : List Step}

theorem nil (within : first ≤ maxTreeDepth) : Disciplined first [] first where
  ends := by simp
  bounded before after split := by
    obtain ⟨rfl, rfl⟩ := List.nil_eq_append_iff.mp split
    simpa using within
  cut _ _ _ split := by simp at split
  opened _ _ _ split := by simp at split
  limits _ _ _ split := by simp at split

theorem append (early : Disciplined first steps middle) (late : Disciplined middle others last) :
    Disciplined first (steps ++ others) last where
  ends := by
    have := early.ends
    have := late.ends
    rw [openVisits_append]
    omega
  bounded before after split := by
    rcases List.append_eq_append_iff.mp split with ⟨between, rfl, here⟩ | ⟨rest, here, rfl⟩
    · have := early.ends
      have := late.bounded between after here
      rw [openVisits_append]
      omega
    · exact early.bounded before rest here
  cut before n after split full := by
    rcases append_eq_append_cons split with ⟨rest, here, rfl⟩ | ⟨between, rfl, here⟩
    · obtain ⟨behind, rfl⟩ := early.cut before n rest here full
      exact ⟨behind ++ others, rfl⟩
    · have := early.ends
      rw [openVisits_append] at full
      exact late.cut between n after here (by omega)
  opened before n after split room := by
    rcases append_eq_append_cons split with ⟨rest, here, rfl⟩ | ⟨between, rfl, here⟩
    · obtain ⟨behind, rfl⟩ := early.opened before n rest here room
      exact ⟨behind ++ others, rfl⟩
    · have := early.ends
      rw [openVisits_append] at room
      exact late.opened between n after here (by omega)
  limits before kind after split := by
    rcases append_eq_append_cons split with ⟨rest, here, rfl⟩ | ⟨between, rfl, here⟩
    · exact early.limits before kind rest here
    · obtain ⟨earlier, n, rfl, same, full⟩ := late.limits between kind after here
      have := early.ends
      refine ⟨steps ++ earlier, n, (List.append_assoc ..).symm, same, ?_⟩
      rw [openVisits_append]
      omega

/-- A step that neither hands a node on nor notes a limit. -/
theorem single {s : Step} (within : first ≤ maxTreeDepth)
    (after : first + s.change ≤ maxTreeDepth) (handsNothing : ∀ n, s ≠ .handed n)
    (limitsNothing : ∀ kind, s ≠ .noted (.limit kind)) :
    Disciplined first [s] (first + s.change) where
  ends := by simp
  bounded before behind split := by
    rcases List.append_eq_singleton_iff.mp split.symm with ⟨rfl, -⟩ | ⟨rfl, -⟩
    · simpa using within
    · simpa using after
  cut before n behind split := by
    obtain ⟨-, same, -⟩ := singleton_eq_append_cons split
    exact absurd same.symm (handsNothing n)
  opened before n behind split := by
    obtain ⟨-, same, -⟩ := singleton_eq_append_cons split
    exact absurd same.symm (handsNothing n)
  limits before kind behind split := by
    obtain ⟨-, same, -⟩ := singleton_eq_append_cons split
    exact absurd same.symm (limitsNothing kind)

/-- A node that is handed on, with what is done about it. -/
theorem answered {n : Node} {s : Step} (within : first ≤ maxTreeDepth)
    (after : first + s.change ≤ maxTreeDepth) (handsNothing : ∀ m, s ≠ .handed m)
    (full : first = maxTreeDepth → s = .noted (.limit n.kind))
    (room : first < maxTreeDepth → s = .opened)
    (limit : ∀ kind, s = .noted (.limit kind) → n.kind = kind ∧ first = maxTreeDepth) :
    Disciplined first [.handed n, s] (first + s.change) where
  ends := by simp [Step.change]
  bounded before behind split := by
    rcases before with _ | ⟨x, _ | ⟨y, before⟩⟩
    · simpa using within
    · simp only [List.cons_append, List.cons.injEq] at split
      obtain ⟨rfl, -⟩ := split
      simpa [Step.change] using within
    · simp only [List.cons_append, List.cons.injEq] at split
      obtain ⟨rfl, rfl, behind⟩ := split
      obtain ⟨rfl, -⟩ := List.nil_eq_append_iff.mp behind
      simpa [Step.change] using after
  cut before m behind split atLimit := by
    rcases pair_eq_append_cons split with ⟨rfl, same, rfl⟩ | ⟨-, same, -⟩
    · obtain rfl := Step.handed.inj same
      exact ⟨[], by rw [full (by simpa using atLimit)]⟩
    · exact absurd same.symm (handsNothing m)
  opened before m behind split below := by
    rcases pair_eq_append_cons split with ⟨rfl, same, rfl⟩ | ⟨-, same, -⟩
    · obtain rfl := Step.handed.inj same
      exact ⟨[], by rw [room (by simpa using below)]⟩
    · exact absurd same.symm (handsNothing m)
  limits before kind behind split := by
    rcases pair_eq_append_cons split with ⟨-, same, -⟩ | ⟨rfl, same, -⟩
    · exact Step.noConfusion same
    · obtain ⟨sameKind, atLimit⟩ := limit kind same.symm
      exact ⟨[], n, rfl, sameKind, by simpa using atLimit⟩

theorem cutOff (n : Node) :
    Disciplined maxTreeDepth [.handed n, .noted (.limit n.kind)] maxTreeDepth := by
  have unchanged : (Step.noted (.limit n.kind)).change = 0 := rfl
  have cut : Disciplined maxTreeDepth [.handed n, .noted (.limit n.kind)]
      (maxTreeDepth + (Step.noted (.limit n.kind)).change) := by
    refine answered (Int.le_refl _) (by simp [unchanged]) (fun m => Step.noConfusion)
      (fun _ => rfl) (fun room => absurd room (Int.lt_irrefl _)) ?_
    rintro kind ⟨⟩
    exact ⟨rfl, rfl⟩
  simpa [unchanged] using cut

/-- A visit that is opened, gone through and closed again. -/
theorem visited {n : Node} (room : first < maxTreeDepth)
    (inside : Disciplined (first + 1) steps (first + 1)) :
    Disciplined first ([.handed n, .opened] ++ (steps ++ [.closed])) first := by
  have entered : Disciplined first [.handed n, .opened] (first + 1) := by
    refine answered (by omega) (by simp [Step.change]; omega) (fun m => Step.noConfusion)
      (fun full => ?_) (fun _ => rfl) fun kind => Step.noConfusion
    omega
  have left : Disciplined (first + 1) [.closed] (first + 1 + Step.closed.change) :=
    single (by omega) (by simp [Step.change]; omega) (fun m => Step.noConfusion)
      fun kind => Step.noConfusion
  have back : first + 1 + Step.closed.change = first := by
    rw [Step.change]
    omega
  rw [back] at left
  exact entered.append (inside.append left)

end Disciplined

namespace Collector

theorem progress_take {s : Step} (silent : s.event? = none) (w : Collector) :
    (w.take s).progress = w.progress := by
  simp [progress, take, silent]

theorem progress_enter (w : Collector) : w.enter.progress = w.progress := progress_take rfl w

theorem progress_leave (w : Collector) : w.leave.progress = w.progress := progress_take rfl w

theorem progress_limit (w : Collector) (kind : Kind) :
    (w.take (.noted (.limit kind))).progress = w.progress.note (.limit kind) := by
  simp [progress, take, Progress.note, Event.isEnclosed, Step.event?]

theorem progress_count {event : Event} (encloses : event.isEnclosed) (w : Collector) :
    (w.count event).progress = w.progress.note event := by
  simp [progress, count, take, Progress.note, encloses, Step.event?]

end Collector

namespace Collect

/-- A collector under `d` open visits does what a gathering action does, an error included, and is
under as many afterwards; what happened is in order. -/
def Follows (d : Nat) (x : Collect α) (y : Gather α) : Prop :=
  ∀ w : Collector, w.depth = d → ∃ outcome after steps, x.run.run w = (outcome, after) ∧
    after.depth = d ∧ after.steps = w.steps ++ steps ∧ Disciplined d steps d ∧
    y.run w.progress = (fun a => (a, after.progress)) <$> outcome

theorem follows_bind {d : Nat} {α β : Type} {x : Collect α} {y : Gather α} {f : α → Collect β}
    {g : α → Gather β} (related : Follows d x y) (next : ∀ a, Follows d (f a) (g a)) :
    Follows d (x >>= f) (y >>= g) := by
  intro w depth
  obtain ⟨outcome, between, steps, ran, same, grown, disciplined, gathered⟩ := related w depth
  cases outcome with
  | error error =>
    refine ⟨_, between, steps, run_bind_of_error ran, same, grown, disciplined, ?_⟩
    rw [StateT.run_bind, gathered]
    rfl
  | ok a =>
    obtain ⟨outcome, after, others, followed, again, more, alsoDisciplined, alsoGathered⟩ :=
      next a between same
    refine ⟨outcome, after, steps ++ others, (run_bind_of_ok ran).trans followed, again, ?_,
      disciplined.append alsoDisciplined, ?_⟩
    · rw [more, grown, List.append_assoc]
    · rw [StateT.run_bind, gathered]
      exact alsoGathered

def follows {d : Nat} (within : d ≤ maxTreeDepth) : Correspondence Collect Gather where
  rel := Follows d
  pure a w depth := ⟨.ok a, w, [], rfl, depth, (List.append_nil _).symm,
    .nil (by exact_mod_cast within), rfl⟩
  bind := follows_bind

theorem follows_enclose {d : Nat} (within : d ≤ maxTreeDepth) (c : Candidate) :
    Follows d (enclose c) (Gather.enclose c) := by
  intro w depth
  cases built : c.enclosed with
  | error error =>
    refine ⟨.error error, w, [], ?_, depth, (List.append_nil _).symm, .nil (by omega), ?_⟩
    · simp only [enclose, built]
      rfl
    · simp only [Gather.enclose, built]
      rfl
  | ok statement =>
    have encloses : (Event.enclosed c.name c.run.shape c.run.length statement).isEnclosed := rfl
    refine ⟨.ok statement, w.count (.enclosed c.name c.run.shape c.run.length statement),
      [.noted _], ?_, depth, rfl, ?_, ?_⟩
    · simp only [enclose, built]
      rfl
    · have single : Disciplined d [.noted (.enclosed c.name c.run.shape c.run.length statement)]
          (d + (Step.noted (.enclosed c.name c.run.shape c.run.length statement)).change) :=
        .single (by omega) (by simp [Step.change]; omega) (fun m => Step.noConfusion)
          (by rintro kind ⟨⟩)
      simpa [Step.change] using single
    · rw [Collector.progress_count encloses]
      simp only [Gather.enclose, built]
      rfl

/-- A visit under `d` open visits is one with the room that is left. The induction is on that room:
at the limit the node is cut off, and above it the level is walked under one more open visit. -/
theorem follows_visit {d room : Nat} (sum : d + room = maxTreeDepth) (n : Node) :
    Follows d (visit n) (Gather.node room n) := by
  induction room generalizing d n with
  | zero =>
    obtain rfl : d = maxTreeDepth := by omega
    intro w depth
    refine ⟨.ok .kept, (w.take (.handed n)).take (.noted (.limit n.kind)),
      [.handed n, .noted (.limit n.kind)], ?_, depth, ?_, .cutOff n, ?_⟩
    · rw [visit_eq, run_guarded, if_pos (by omega)]
    · simp [Collector.take]
    · rw [Collector.progress_limit, Collector.progress_take rfl]
      rfl
  | succ room ih =>
    intro w depth
    have inner : Follows (d + 1) (Walk.node enclose visit n) (Gather.node (room + 1) n) := by
      rw [Gather.node, Gather.layer_eq]
      exact (follows (by omega)).node (follows_enclose (by omega)) fun c _ => ih (by omega) c
    have entered : (w.take (.handed n)).enter.depth = d + 1 := congrArg (· + 1) depth
    obtain ⟨outcome, after, steps, ran, same, grown, disciplined, gathered⟩ := inner _ entered
    refine ⟨outcome, after.leave, [.handed n, .opened] ++ (steps ++ [.closed]), ?_, ?_, ?_, ?_, ?_⟩
    · rw [visit_eq, run_guarded, if_neg (by omega), ran]
    · simp [Collector.leave, same]
    · simp [Collector.leave, Collector.take, Collector.enter, grown]
    · exact .visited (by omega) (by simpa using disciplined)
    · rw [Collector.progress_enter, Collector.progress_take rfl] at gathered
      rw [Collector.progress_leave]
      exact gathered

theorem follows_list {d room : Nat} (sum : d + room = maxTreeDepth) (statements : List Node) :
    Follows d (list statements) (Gather.list (Gather.node room) statements) := by
  rw [Gather.list_eq]
  exact (follows (by omega)).list (follows_enclose (by omega)) fun _ _ c _ => follows_visit sum c

/-- What follows an action that settles succeeds as it does. -/
theorem Follows.settled {d : Nat} {x : Collect α} {y : Gather α} {value : α} {events : List Event}
    (follows : Follows d x y) (settled : Gather.Settles y value events) {w : Collector}
    (depth : w.depth = d) : ∃ after steps, x.run.run w = (.ok value, after) ∧ after.depth = d ∧
      after.steps = w.steps ++ steps ∧ Disciplined d steps d ∧
      after.progress = w.progress.record events := by
  obtain ⟨outcome, after, steps, ran, same, grown, disciplined, gathered⟩ := follows w depth
  have known := (settled w.progress).symm.trans gathered
  cases outcome with
  | error error => exact nomatch known
  | ok a =>
    obtain ⟨rfl, progress⟩ := Prod.mk.inj (Except.ok.inj known)
    exact ⟨after, steps, ran, same, grown, disciplined, progress.symm⟩

end Collect

/-- The limit only cuts. There is one way to gather without it, and a run that meets no limit does
just that, for a tree and for a list. Never are more visits open than may be, and a limit is noted
exactly where a node is handed on under that many: such a node is kept and nothing else happens to
it. All this is told from the steps of a collector, which does what gathering does. -/
theorem Gather.limit_only_cuts :
    (∀ visit : Node → Gather (Edit Node), (∀ n, visit n = layer visit n) ↔ visit = free) ∧
    (∀ t : Node, ∃ e w, (Collect.visit t).run.run .start = (.ok e, w) ∧
      t.gather.run .start = .ok (e, w.progress) ∧ w.depth = 0 ∧ Disciplined 0 w.steps 0 ∧
      ((∀ event ∈ w.progress.events, event.isEnclosed) →
        (free t).run .start = .ok (e, w.progress))) ∧
    (∀ statements, ∃ revisions w,
      (Collect.list statements).run.run .start = (.ok revisions, w) ∧
      (gatherList statements).run .start = .ok (revisions, w.progress) ∧
      w.depth = 0 ∧ Disciplined 0 w.steps 0 ∧
      ((∀ event ∈ w.progress.events, event.isEnclosed) →
        (list free statements).run .start = .ok (revisions, w.progress))) ∧
    ∀ n (w : Collector), maxTreeDepth ≤ w.depth → (Collect.visit n).run.run w =
      (.ok .kept, (w.take (.handed n)).take (.noted (.limit n.kind))) := by
  have whole := Nat.zero_add maxTreeDepth
  refine ⟨eq_free_iff, fun t => ?_, fun statements => ?_, fun n w full => ?_⟩
  · have settled := settles_node maxTreeDepth t
    obtain ⟨w, steps, ran, depth, rfl, disciplined, progress⟩ :=
      (Collect.follows_visit whole t).settled settled (w := .start) rfl
    have gathered : t.gather.run .start = .ok (edit maxTreeDepth t, w.progress) :=
      (settled .start).trans (by rw [progress]; rfl)
    refine ⟨_, w, ran, gathered, depth, disciplined, fun inside => ?_⟩
    have reaches : Reaches maxTreeDepth t := (reaches_iff _ _).mpr fun event noted =>
      inside event (by rw [progress]; exact (mem_events_start _).mpr noted)
    rw [← reaches.node_eq_free]
    exact gathered
  · have settled := settles_list (settles_node maxTreeDepth) statements
    obtain ⟨w, steps, ran, depth, rfl, disciplined, progress⟩ :=
      (Collect.follows_list whole statements).settled settled (w := .start) rfl
    have gathered : (gatherList statements).run .start = .ok (_, w.progress) :=
      (settled .start).trans (by rw [progress]; rfl)
    refine ⟨_, w, ran, gathered, depth, disciplined, fun inside => ?_⟩
    have reaches := reaches_parts fun event noted =>
      inside event (by rw [progress]; exact (mem_events_start _).mpr noted)
    rw [← list_eq_free reaches]
    exact gathered
  · rw [Collect.visit_eq, Collect.run_guarded, if_pos full]

/-- A tree and a list that are walked without the limit, and a node that is cut off. -/
theorem Gather.limit_only_cuts_nested :
    (∃ e w, (Collect.visit nested).run.run .start = (.ok e, w) ∧
      (free nested).run .start = .ok (e, w.progress)) ∧
    (∃ revisions w, (Collect.list [nested]).run.run .start = (.ok revisions, w) ∧
      (list free [nested]).run .start = .ok (revisions, w.progress)) ∧
    (Collect.visit nested).run.run ⟨maxTreeDepth, 0, []⟩ =
      (.ok .kept, ⟨maxTreeDepth, 0, [.handed nested, .noted (.limit .sourceFile)]⟩) := by
  obtain ⟨-, trees, lists, full⟩ := limit_only_cuts
  refine ⟨?_, ?_, full nested _ (Nat.le_refl _)⟩
  · obtain ⟨e, w, ran, gathered, -, -, unlimited⟩ := trees nested
    exact ⟨e, w, ran, unlimited (inside_nested gathered)⟩
  · obtain ⟨revisions, w, ran, gathered, -, -, unlimited⟩ := lists [nested]
    refine ⟨revisions, w, ran, unlimited fun event member => ?_⟩
    have settled := settles_list (settles_node maxTreeDepth) [nested] .start
    obtain ⟨-, noted⟩ := Prod.mk.inj (Except.ok.inj (settled.symm.trans gathered))
    rw [← noted, mem_events_start] at member
    have inside : ((Segment.ofList [nested]).flatMap (Segment.events (result maxTreeDepth)
      (events maxTreeDepth))).all Event.isEnclosed := by decide
    exact List.all_eq_true.mp inside event member

end PureEnum
