import Planner.Accounting
import Planner.Network

/-! The turns of an accepted plan: what the placement loop found when it came to
a task, what it left, and which assignment of the result came of it. -/

namespace Planner

open CapacityIndex

section Pass

variable {cal : WorkingCalendar} {req : PlanRequest} {graph : Dag} {order : List UUID}
  {st st' : PlanState} {tid : UUID} {a : Assignment}

/-- Whatever is filed in the end was there before the pass or was filed at its own turn. -/
theorem placeAll_filed (h : placeAll cal req graph order st = .ok st')
    (ha : st'.assignments.get? tid = some a) :
    st.assignments.get? tid = some a ∨
      ∃ pre post before after task, order = pre ++ tid :: post ∧
        placeAll cal req graph pre st = .ok before ∧ placeTask cal req graph before tid = .ok after ∧
        placeAll cal req graph post after = .ok st' ∧ tid ∉ before.assignments.keys ∧
        (tasksById req).get? tid = some task ∧ after.assignments.get? tid = some a := by
  induction order generalizing st with
  | nil =>
    obtain rfl := Except.ok.inj h
    exact Or.inl ha
  | cons t order ih =>
    simp only [placeAll] at h
    split at h
    · cases h
    · rename_i st₁ hstep
      rcases ih h with hfiled | ⟨pre, post, before, after, task, he, hpre, hturn, hpost, hnew, htask, hget⟩
      · rcases placeTask_cases hstep with ⟨rfl, -⟩ | ⟨task, person, p, idx, hnew, htask, -, -, hst⟩
        · exact Or.inl hfiled
        · by_cases ht : tid = t
          · subst ht
            exact Or.inr ⟨[], order, st, st₁, task, rfl, rfl, hstep, h, hnew, htask, hfiled⟩
          · refine Or.inl ?_
            rw [hst, OrdDict.get?_insert_of_ne _ _ ht] at hfiled
            exact hfiled
      · refine Or.inr ⟨t :: pre, post, before, after, task, by rw [he]; rfl, ?_, hturn, hpost, hnew, htask, hget⟩
        simp only [placeAll, hstep]
        exact hpre

end Pass

/-- `task` was placed: the state that its turn found, and the state it left. -/
structure PlacementTurn (s : GreedySolver) (req : PlanRequest) (res : PlanResult) (task : Task)
    (before after : PlanState) : Prop where
  plan : s.plan req = .ok res
  pass : ∃ order pre post final, s.topologicalSort.run (buildDag req.tasks req.dependencies) = some order ∧
    order = pre ++ task.id :: post ∧
    placeAll s.calendar req (buildDag req.tasks req.dependencies) pre (startState s.calendar req) = .ok before ∧
    placeAll s.calendar req (buildDag req.tasks req.dependencies) post after = .ok final ∧
    res = planResult req order final
  step : placeTask s.calendar req (buildDag req.tasks req.dependencies) before task.id = .ok after
  unplaced : task.id ∉ before.assignments.keys
  held : (tasksById req).get? task.id = some task

/-- The first day the dependencies allow, at the turn of `task`. -/
def earliestAt (s : GreedySolver) (req : PlanRequest) (task : Task) (before : PlanState) : Date :=
  earliestStart task (buildDag req.tasks req.dependencies) before.assignments req.horizonStart s.calendar

section Turns

variable {s : GreedySolver} {req : PlanRequest} {res : PlanResult} {task : Task} {before after : PlanState}

namespace PlacementTurn

theorem mem (h : PlacementTurn s req res task before after) : task ∈ req.tasks :=
  (mem_of_tasksById h.held).1

theorem placed (h : PlacementTurn s req res task before after) :
    ∃ person p idx, Placed task (earliestAt s req task before) s.calendar before.idx.free
        (horizonLimit req) (allowedPeople req task) person p ∧ SameLoad before.idx idx ∧
      after = ⟨idx.occupy p.allocs, before.assignments.insert task.id (p.toAssignment task.id person)⟩ := by
  rcases placeTask_cases h.step with ⟨-, hk | hn⟩ | ⟨task', person, p, idx, -, htask, hpl, hl, hafter⟩
  · exact absurd hk h.unplaced
  · rw [h.held] at hn
    cases hn
  · obtain rfl := Option.some.inj (h.held.symm.trans htask)
    exact ⟨person, p, idx, hpl, hl, hafter⟩

theorem filed (h : PlacementTurn s req res task before after) {a : Assignment}
    (ha : after.assignments.get? task.id = some a) : a ∈ res.assignments := by
  obtain ⟨order, pre, post, final, -, he, -, hpost, rfl⟩ := h.pass
  refine mem_planResult.mpr ⟨task.id, ?_, placeAll_keeps ha hpost⟩
  rw [he]
  exact List.mem_append_right _ List.mem_cons_self

/-- What was free before the turn less what the turn books. -/
theorem free_eq {p : Placement} {person : Person} {idx : CapacityIndex} (hl : SameLoad before.idx idx)
    (hafter : after = ⟨idx.occupy p.allocs, before.assignments.insert task.id (p.toAssignment task.id person)⟩)
    (q : UUID) (d : Date) : after.idx.free q d = before.idx.free q d - hoursOn p.allocs q d := by
  rw [hafter]
  change (idx.occupy p.allocs).free q d = _
  rw [free_occupy, hl.free]

end PlacementTurn

/-- An assignment of a plan is held in place or comes from a turn. -/
theorem turn_of_assignment (h : s.plan req = .ok res) {a : Assignment} (ha : a ∈ res.assignments) :
    (∃ t ∈ req.tasks, t.pinned? = some a) ∨
      ∃ task before after, PlacementTurn s req res task before after ∧
        after.assignments.get? task.id = some a := by
  obtain ⟨order, st, hrun, hall, hres⟩ := plan_ok h
  rw [hres] at ha
  obtain ⟨tid, hmem, hget⟩ := mem_planResult.mp ha
  rcases placeAll_filed hall hget with hpin | ⟨pre, post, before, after, task, he, hpre, hstep, hpost, hnew, htask, hfiled⟩
  · obtain ⟨t, ht, -, hp⟩ := startState_get? hpin
    exact Or.inl ⟨t, ht, hp⟩
  · obtain ⟨-, rfl⟩ := mem_of_tasksById htask
    exact Or.inr ⟨task, before, after,
      ⟨h, ⟨order, pre, post, st, hrun, he, hpre, hpost, hres⟩, hstep, hnew, htask⟩, hfiled⟩

theorem mem_order_of_task {order : List UUID}
    (hrun : s.topologicalSort.run (buildDag req.tasks req.dependencies) = some order) {t : Task}
    (ht : t ∈ req.tasks) : t.id ∈ order :=
  ((s.topologicalSort.sound _ _ hrun).mem_iff _).mpr
    (mem_nodes_buildDag_iff.mpr (Or.inl (List.mem_map_of_mem ht)))

/-- A movable task that shares its id with no other task has a turn. -/
theorem exists_placementTurn (h : s.plan req = .ok res) {t : Task} (ht : t ∈ req.tasks)
    (hp : t.pinned? = none) (hown : ∀ u ∈ req.tasks, u.id = t.id → u = t) :
    ∃ before after, PlacementTurn s req res t before after := by
  obtain ⟨order, st, hrun, hall, hres⟩ := plan_ok h
  have hk : t.id ∈ (tasksById req).keys := keys_tasksById.mpr (List.mem_map_of_mem ht)
  obtain ⟨u, hu⟩ := Option.isSome_iff_exists.mp (OrdDict.mem_keys.mp hk)
  obtain ⟨hmem, hid⟩ := mem_of_tasksById hu
  obtain rfl := hown u hmem hid
  have hplaced := placeAll_places (mem_order_of_task hrun ht) hall hu
  obtain ⟨a, ha⟩ := Option.isSome_iff_exists.mp (OrdDict.mem_keys.mp hplaced)
  rcases placeAll_filed hall ha with hpin | ⟨pre, post, before, after, task, he, hpre, hstep, hpost, hnew, htask, hfiled⟩
  · obtain ⟨v, hv, hid, hpv⟩ := startState_get? hpin
    obtain rfl := hown v hv hid
    rw [hp] at hpv
    cases hpv
  · exact ⟨before, after, h, ⟨order, pre, post, st, hrun, he, hpre, hpost, hres⟩, hstep, hnew, hu⟩

end Turns

end Planner
