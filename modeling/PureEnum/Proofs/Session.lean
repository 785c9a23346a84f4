import PureEnum.Proofs.Collector

/-! Sessions: trees given to one collector, one after the other. A collector comes out of each visit
under as many open visits as it went in, so it treats every tree as a new collector would, and the
number of enums it has enclosed by then is the sum of what the trees have by themselves. -/
namespace PureEnum

namespace Collect

/-- After the action as many visits are open as before, also when it fails. -/
def Keeps (x : Collect α) : Prop := ∀ w, (x.run.run w).2.depth = w.depth

theorem keeps_bind {α β : Type} {x : Collect α} {f : α → Collect β} (keeps : Keeps x)
    (next : ∀ a, Keeps (f a)) : Keeps (x >>= f) := by
  intro w
  have first := keeps w
  cases ran : x.run.run w with
  | mk outcome between =>
    rw [ran] at first
    cases outcome with
    | error error =>
      rw [run_bind_of_error ran]
      exact first
    | ok a =>
      rw [run_bind_of_ok ran]
      exact (next a between).trans first

def keeping : Correspondence Collect Collect where
  rel x _ := Keeps x
  pure _ _ := rfl
  bind keeps next := keeps_bind keeps next

/-- A guarded level may end in an error: what it raised is lowered all the same. -/
theorem keeps_guarded {level : Collect (Edit Node)} (keeps : Keeps level) (n : Node) :
    Keeps (guarded n level) := by
  intro w
  rw [run_guarded]
  split
  · rfl
  · have inside := keeps (w.take (.handed n)).enter
    have lowered : ∀ v : Collector, v.leave.depth = v.depth - 1 := fun _ => rfl
    rw [lowered, inside]
    rfl

/-- A walk keeps the number of open visits if enclosing does. -/
theorem keeps_descend {enclose : Candidate → Collect Node} (keeps : ∀ c, Keeps (enclose c))
    (n : Node) : Keeps (Walk.descend enclose guarded n) := by
  induction n using Gather.induction_on_handed with
  | step n ih =>
    rw [Walk.descend_eq]
    apply keeps_guarded
    have level : keeping.rel (Walk.node enclose (Walk.descend enclose guarded) n)
        (Walk.node enclose (Walk.descend enclose guarded) n) := keeping.node keeps ih
    exact level

theorem keeps_enclose (c : Candidate) : Keeps (enclose c) := by
  intro w
  cases built : c.enclosed with
  | error error =>
    simp only [enclose, built]
    rfl
  | ok statement =>
    simp only [enclose, built]
    rfl

theorem keeps_visit (n : Node) : Keeps (visit n) := keeps_descend keeps_enclose n

def count (t : Node) : Nat := ((visit t).run.run .start).2.enclosed

def total : Collect Nat := return (← get).enclosed

def session (trees : List Node) : Collect (List (Edit Node × Nat)) :=
  trees.mapM fun t => do
    let e ← visit t
    return (e, ← total)

end Collect

namespace Gather

def total : Gather Nat := return (← get).enclosed

def session (trees : List Node) : Gather (List (Edit Node × Nat)) :=
  trees.mapM fun t => do
    let e ← t.gather
    return (e, ← total)

end Gather

namespace Collect

theorem follows_total {d : Nat} (within : d ≤ maxTreeDepth) : Follows d total Gather.total :=
  fun w depth => ⟨.ok w.enclosed, w, [], rfl, depth, (List.append_nil _).symm,
    .nil (by exact_mod_cast within), rfl⟩

theorem follows_session (trees : List Node) : Follows 0 (session trees) (Gather.session trees) :=
  (follows (Nat.zero_le _)).mapM fun t _ =>
    follows_bind (follows_visit (Nat.zero_add _) t) fun e =>
      (follows (Nat.zero_le _)).map (follows_total (Nat.zero_le _)) fun total => (e, total)

theorem count_eq (t : Node) :
    count t = (Gather.events maxTreeDepth t).countP Event.isEnclosed := by
  obtain ⟨w, -, ran, -, -, -, progress⟩ := (follows_visit (Nat.zero_add _) t).settled
    (Gather.settles_node maxTreeDepth t) (w := .start) rfl
  have counted : w.enclosed = _ := congrArg Progress.enclosed progress
  rw [count, ran, counted, Progress.enclosed_record]
  exact Nat.zero_add _

/-- From no open visit a tree is treated as by a new collector, and its enums are counted on top. -/
theorem visit_again (t : Node) {w : Collector} (closed : w.depth = 0) : ∃ e fresh after,
    (visit t).run.run .start = (.ok e, fresh) ∧ t.gather.run .start = .ok (e, fresh.progress) ∧
    (visit t).run.run w = (.ok e, after) ∧ after.depth = 0 ∧
    after.enclosed = w.enclosed + count t := by
  have settled := Gather.settles_node maxTreeDepth t
  have follows := follows_visit (Nat.zero_add _) t
  obtain ⟨fresh, -, new, -, -, -, known⟩ := follows.settled settled (w := .start) rfl
  obtain ⟨after, -, ran, depth, -, -, progress⟩ := follows.settled settled closed
  refine ⟨_, fresh, after, new, ?_, ran, depth, ?_⟩
  · rw [known]
    exact settled .start
  · have total : after.enclosed = _ := congrArg Progress.enclosed progress
    rw [total, Progress.enclosed_record, count_eq]
    rfl

/-- Each total is the one before and what is in the tree, so no total is below what was enclosed at
the start. The induction is on the trees, from wherever no visit is open. -/
theorem session_totals (trees : List Node) {w : Collector} (closed : w.depth = 0) :
    ∃ results after, (session trees).run.run w = (.ok results, after) ∧ after.depth = 0 ∧
      results.length = trees.length ∧
      (∀ k t, trees[k]? = some t → ∃ e fresh, (visit t).run.run .start = (.ok e, fresh) ∧
        t.gather.run .start = .ok (e, fresh.progress) ∧
        results[k]? = some (e, w.enclosed + ((trees.take (k + 1)).map count).sum)) ∧
      (∀ r ∈ results, w.enclosed ≤ r.2) ∧
      results.Pairwise fun earlier later => earlier.2 ≤ later.2 := by
  induction trees generalizing w with
  | nil => exact ⟨[], w, rfl, closed, rfl, by simp, by simp, .nil⟩
  | cons t trees ih =>
    obtain ⟨e, fresh, between, new, gathered, ran, depth, more⟩ := visit_again t closed
    obtain ⟨results, after, others, back, length, each, above, ordered⟩ := ih depth
    refine ⟨(e, between.enclosed) :: results, after, ?_, back, congrArg Nat.succ length, ?_, ?_, ?_⟩
    · have first : (do
          let e ← visit t
          return (e, ← total) : Collect (Edit Node × Nat)).run.run w =
            (.ok (e, between.enclosed), between) := run_bind_of_ok ran
      rw [session, List.mapM_cons, run_bind_of_ok first]
      exact run_bind_of_ok others
    · intro k u here
      cases k with
      | zero =>
        obtain rfl := Option.some.inj here
        exact ⟨e, fresh, new, gathered, by simp [more]⟩
      | succ k =>
        obtain ⟨f, start, new, gathered, known⟩ := each k u here
        refine ⟨f, start, new, gathered, ?_⟩
        rw [List.getElem?_cons_succ, known, more, List.take_succ_cons, List.map_cons, List.sum_cons,
          Nat.add_assoc]
    · refine List.forall_mem_cons.mpr ⟨?_, fun r member => ?_⟩
      · omega
      · have := above r member
        omega
    · exact .cons above ordered

end Collect

/-- A collector can be used again. After each visit as many are open as before, whatever is
enclosed on the way and whatever fails or is cut off. So each of a number of trees is treated as by
a new collector, and the enums enclosed by then are those of the trees so far. -/
theorem Collect.reusable :
    (∀ enclose : Candidate → Collect Node, (∀ c, Keeps (enclose c)) →
      ∀ n, Keeps (Walk.descend enclose guarded n)) ∧
    (∀ n, Keeps (visit n)) ∧
    ∀ trees, ∃ results w, (session trees).run.run .start = (.ok results, w) ∧
      (Gather.session trees).run .start = .ok (results, w.progress) ∧ w.depth = 0 ∧
      results.length = trees.length ∧
      (∀ k t, trees[k]? = some t → ∃ e fresh, (visit t).run.run .start = (.ok e, fresh) ∧
        t.gather.run .start = .ok (e, fresh.progress) ∧
        results[k]? = some (e, ((trees.take (k + 1)).map count).sum)) ∧
      results.Pairwise fun earlier later => earlier.2 ≤ later.2 := by
  refine ⟨fun _ => keeps_descend, keeps_visit, fun trees => ?_⟩
  obtain ⟨results, w, ran, closed, length, each, -, ordered⟩ :=
    session_totals trees (w := .start) rfl
  obtain ⟨outcome, after, -, followed, -, -, -, gathered⟩ := follows_session trees .start rfl
  obtain ⟨rfl, rfl⟩ := Prod.mk.inj (ran.symm.trans followed)
  refine ⟨results, w, ran, gathered, closed, length, fun k t here => ?_, ordered⟩
  obtain ⟨e, fresh, new, alone, known⟩ := each k t here
  refine ⟨e, fresh, new, alone, known.trans ?_⟩
  rw [Collector.start, Nat.zero_add]

/-- The same tree again: it has one enum, so two are enclosed by then. -/
theorem Collect.reusable_twice : Keeps (Walk.descend enclose guarded Gather.nested) ∧
    ∃ results w e fresh,
      (session [Gather.nested, Gather.nested]).run.run .start = (.ok results, w) ∧ w.depth = 0 ∧
      (visit Gather.nested).run.run .start = (.ok e, fresh) ∧
      results[1]? = some (e, 2) := by
  obtain ⟨nestedVisits, -, sessions⟩ := reusable
  obtain ⟨results, w, ran, -, closed, -, each, -⟩ := sessions [Gather.nested, Gather.nested]
  obtain ⟨e, fresh, new, -, known⟩ := each 1 Gather.nested rfl
  have one : count Gather.nested = 1 := by
    rw [count_eq]
    decide
  refine ⟨nestedVisits enclose keeps_enclose _, results, w, e, fresh, ran, closed, new, ?_⟩
  simpa [one] using known

end PureEnum
