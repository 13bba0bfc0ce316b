import Planner.CompletePlan
import Planner.PlainPlan

/-! When planning fails. Callers translate two errors, an empty pool and a cycle;
a splittable task without hours that is raced for raises a third. -/

namespace Planner

/-- Tasks and nobody to work on them. -/
def PlanRequest.Unstaffed (req : PlanRequest) : Prop := req.tasks ≠ [] ∧ req.people = []

/-- Something waits for itself, a task or not. -/
def PlanRequest.Cyclic (req : PlanRequest) : Prop := ∃ v, Relation.TransGen req.Requires v v

/-- The two errors in their places, and a plan everywhere else. -/
structure GreedySolver.RaisesAsAgreed (s : GreedySolver) (req : PlanRequest) : Prop where
  unstaffed : req.Unstaffed → s.plan req = .error .noPeople
  cyclic : ¬ req.Unstaffed → req.Cyclic → s.plan req = .error .networkXUnfeasible
  planned : ¬ req.Unstaffed → ¬ req.Cyclic → ∃ res, s.plan req = .ok res

/-- Every splittable task that its candidates race for has hours to spread: one
that is not held in place, no window and no pair of two. -/
def PlanRequest.SplitsHours (req : PlanRequest) : Prop :=
  ∀ t ∈ req.tasks, t.pinned? = none → t.durationIsWindow = false →
    ¬ (t.pairMode = .required ∧ 2 ≤ (allowedPeople req t).length) → t.isSplittable = true → 0 < t.durationHours

section Graph

variable {s : GreedySolver} {req : PlanRequest}

theorem edge_iff_requires {u v : UUID} :
    (buildDag req.tasks req.dependencies).Edge u v ↔ req.Requires u v := by
  refine ⟨fun h => ?_, edge_of_requires⟩
  rw [EdgeGraph.Edge, edges_buildDag, OrdDict.mem_keys_ofList, List.map_map] at h
  obtain ⟨d, hd, he⟩ := List.mem_map.mp h
  obtain ⟨rfl, rfl⟩ := Prod.mk.inj he
  exact ⟨d, hd, rfl, rfl⟩

theorem acyclic_iff_not_cyclic : (buildDag req.tasks req.dependencies).Acyclic ↔ ¬ req.Cyclic := by
  have hedge : (buildDag req.tasks req.dependencies).Edge = req.Requires := by
    funext u v
    exact propext edge_iff_requires
  rw [PlanRequest.Cyclic, EdgeGraph.Acyclic, hedge, not_exists]

theorem run_isSome_iff : (∃ order, s.topologicalSort.run (buildDag req.tasks req.dependencies) = some order) ↔
    ¬ req.Cyclic := by
  rw [← acyclic_iff_not_cyclic]
  exact ⟨fun ⟨_, h⟩ => (s.topologicalSort.sound _ _ h).acyclic, s.topologicalSort.complete _⟩

end Graph

section Errors

variable {s : GreedySolver} {req : PlanRequest}

theorem placeableBy_iff (hids : (req.tasks.map Task.id).Nodup) (hstaffed : ¬ req.Unstaffed) {cal : WorkingCalendar}
    {order : List UUID} (hmem : ∀ t ∈ req.tasks, t.id ∈ order) :
    (∀ tid ∈ order, tid ∉ (startState cal req).assignments.keys → ∀ task, (tasksById req).get? tid = some task →
      task.PlaceableBy (allowedPeople req task)) ↔ req.SplitsHours := by
  constructor
  · intro h t ht hp
    exact (h t.id (hmem t ht) (not_mem_startState hids ht hp) t (tasksById_get? hids ht)).hours
  · intro h tid _ hnew task htask
    obtain ⟨ht, rfl⟩ := mem_of_tasksById htask
    have hpool : req.people ≠ [] := fun hnil => hstaffed ⟨List.ne_nil_of_mem ht, hnil⟩
    refine ⟨allowedPeople_ne_nil hpool task, h task ht ?_⟩
    by_contra hpinned
    obtain ⟨a, ha⟩ := Option.ne_none_iff_exists'.mp hpinned
    have hheld := startState_pinned cal (nodup_pinned_ids hids) ht ha
    exact hnew (OrdDict.mem_keys.mpr (by rw [hheld]; rfl))

theorem plan_unstaffed (h : req.Unstaffed) : s.plan req = .error .noPeople := by
  have hguard : (!req.tasks.isEmpty && req.people.isEmpty) = true := by simp [h.1, h.2]
  rw [GreedySolver.plan, if_pos hguard]

theorem plan_staffed (h : ¬ req.Unstaffed) : s.plan req =
    match s.topologicalSort.run (buildDag req.tasks req.dependencies) with
    | none => .error .networkXUnfeasible
    | some order =>
      match placeAll s.calendar req (buildDag req.tasks req.dependencies) order (startState s.calendar req) with
      | .error e => .error e
      | .ok st => .ok (planResult req order st) := by
  have hguard : (!req.tasks.isEmpty && req.people.isEmpty) = false := by
    by_contra hg
    exact h (by simpa [PlanRequest.Unstaffed] using hg)
  rw [GreedySolver.plan]
  exact if_neg (by rw [hguard]; exact Bool.false_ne_true)

theorem plan_cyclic (h : ¬ req.Unstaffed) (hc : req.Cyclic) : s.plan req = .error .networkXUnfeasible := by
  have hnone : s.topologicalSort.run (buildDag req.tasks req.dependencies) = none := by
    by_contra hrun
    exact run_isSome_iff.mp (Option.ne_none_iff_exists'.mp hrun) hc
  rw [plan_staffed h, hnone]

/-- On what can be ordered, planning gets through if and only if all hours to be split are there. -/
theorem plan_isOk (hids : (req.tasks.map Task.id).Nodup) (h : ¬ req.Unstaffed) (hc : ¬ req.Cyclic) :
    (∃ res, s.plan req = .ok res) ↔ req.SplitsHours := by
  obtain ⟨order, hrun⟩ := (run_isSome_iff (s := s)).mpr hc
  have htopo := s.topologicalSort.sound _ _ hrun
  have hpass := @placeAll_isOk s.calendar req (buildDag req.tasks req.dependencies) order
    (startState s.calendar req) htopo.nodup
  rw [← placeableBy_iff hids h fun t ht => mem_order_of_task hrun ht, ← hpass, plan_staffed h, hrun]
  dsimp only
  cases placeAll s.calendar req (buildDag req.tasks req.dependencies) order (startState s.calendar req) <;> simp

end Errors

/-- The solver raises as agreed unless the task that it would have to spread has no hours. -/
theorem plan_raises_iff (s : GreedySolver) (req : PlanRequest) (hids : (req.tasks.map Task.id).Nodup) :
    s.RaisesAsAgreed req ↔ req.Unstaffed ∨ req.Cyclic ∨ req.SplitsHours := by
  constructor
  · intro h
    by_cases hstaff : req.Unstaffed
    · exact Or.inl hstaff
    · by_cases hc : req.Cyclic
      · exact Or.inr (Or.inl hc)
      · exact Or.inr (Or.inr ((plan_isOk hids hstaff hc).mp (h.planned hstaff hc)))
  · intro h
    refine ⟨plan_unstaffed, plan_cyclic, fun hstaff hc => (plan_isOk hids hstaff hc).mpr ?_⟩
    exact (h.resolve_left hstaff).resolve_left hc

/-- A splittable task of no hours. -/
def emptyTaskRequest : PlanRequest where
  people := [⟨1, "Анна", 8⟩]
  tasks := [{ id := 7, name := "Сдача", durationHours := 0, allowedPersonIds := [1], isSplittable := true }]
  dependencies := []
  horizonStart := Date.ofYmd 2026 6 1

theorem plan_raises_iff_empty : GreedySolver.onWeekdays.RaisesAsAgreed emptyTaskRequest ↔
    emptyTaskRequest.Unstaffed ∨ emptyTaskRequest.Cyclic ∨ emptyTaskRequest.SplitsHours :=
  plan_raises_iff .onWeekdays emptyTaskRequest (by decide)

/-- There is nothing to take the minimum of. -/
theorem empty_task_raises : (emptyTaskRequest.tasks.map Task.id).Nodup ∧
    (∀ t ∈ emptyTaskRequest.tasks, 0 ≤ t.durationHours) ∧ (∀ p ∈ emptyTaskRequest.people, 0 ≤ p.capacityH) ∧
    (∀ d ∈ emptyTaskRequest.dependencies, 0 ≤ d.lagWorkingDays) ∧
    GreedySolver.onWeekdays.plan emptyTaskRequest = .error .emptySequence ∧
    ¬ GreedySolver.onWeekdays.RaisesAsAgreed emptyTaskRequest := by
  have hplan : GreedySolver.onWeekdays.plan emptyTaskRequest = .error .emptySequence := by decide +kernel
  refine ⟨by decide, by decide, by decide, by decide, hplan, fun h => ?_⟩
  have hstaffed : ¬ emptyTaskRequest.Unstaffed := fun hu => by cases hu.2
  have hacyclic : ¬ emptyTaskRequest.Cyclic := by
    rintro ⟨v, hv⟩
    obtain ⟨u, -, d, hd, -⟩ := Relation.TransGen.tail'_iff.mp hv
    cases hd
  obtain ⟨res, hres⟩ := h.planned hstaffed hacyclic
  rw [hplan] at hres
  cases hres

end Planner
