import Mathlib.Data.Rat.Floor
import Planner.Network
import Planner.PlanErrors

/-! Backward mode. The critical path is the longest chain of dependencies, and it
is found for what can be planned if no dependency leaves the request. -/

namespace Planner

/-- The smallest capacity of an allowed person in the pool, or eight hours. -/
def smallestCapacity (req : PlanRequest) (t : Task) : Int :=
  (t.allowedPersonIds.filterMap fun pid => ((peopleById req).get? pid).map Person.capacityH).min?.getD 8

/-- The whole days of a task, of at least an hour each. -/
def dayCount (req : PlanRequest) (t : Task) : Nat :=
  (max 1 ⌈(t.durationHours : ℚ) / (max 1 (smallestCapacity req t) : ℤ)⌉).toNat

/-- Tasks of the request, each of which the next one depends on. -/
structure PlanRequest.IsTaskChain (req : PlanRequest) (chain : List Task) : Prop where
  tasks : ∀ t ∈ chain, t ∈ req.tasks
  linked : chain.IsChain fun t u => req.Requires t.id u.id

section Days

variable {req : PlanRequest} {t : Task}

/-- The quotient is a float in the source, whose ceiling is this one below `2 ^ 53` hours. -/
theorem dayCount_eq : dayCount req t = durationDays t (peopleById req) := by
  have hpos : 0 < max (smallestCapacity req t) 1 := by omega
  obtain ⟨cap, hcap⟩ := Int.eq_ofNat_of_zero_le hpos.le
  have hceil : ⌈(t.durationHours : ℚ) / (max 1 (smallestCapacity req t) : ℤ)⌉ =
      -(-t.durationHours / max (smallestCapacity req t) 1) := by
    rw [max_comm, hcap]
    have h := Rat.ceil_intCast_div_natCast t.durationHours cap
    push_cast at h ⊢
    exact h
  rw [dayCount, hceil]
  rfl

theorem chainDays_eq (hids : (req.tasks.map Task.id).Nodup) (ht : t ∈ req.tasks) :
    chainDays req t.id = dayCount req t := by
  rw [chainDays, tasksById_get? hids ht, Option.elim_some, dayCount_eq]

end Days

section Chains

variable {req : PlanRequest}

theorem exists_tasks_of_ids {ids : List UUID} (h : ∀ v ∈ ids, v ∈ req.tasks.map Task.id) :
    ∃ chain : List Task, (∀ t ∈ chain, t ∈ req.tasks) ∧ chain.map Task.id = ids := by
  induction ids with
  | nil => exact ⟨[], by simp, rfl⟩
  | cons v ids ih =>
    obtain ⟨hv, hids⟩ := List.forall_mem_cons.mp h
    obtain ⟨t, ht, rfl⟩ := List.mem_map.mp hv
    obtain ⟨chain, hchain, rfl⟩ := ih hids
    exact ⟨t :: chain, List.forall_mem_cons.mpr ⟨ht, hchain⟩, rfl⟩

theorem isChain_ids {chain : List Task} :
    (chain.map Task.id).IsChain (fun u v => u ∈ (buildDag req.tasks req.dependencies).predecessors v) ↔
      chain.IsChain fun t u => req.Requires t.id u.id := by
  rw [List.isChain_map]
  simp only [EdgeGraph.mem_predecessors, edge_iff_requires]

theorem sum_chainDays (hids : (req.tasks.map Task.id).Nodup) {chain : List Task} (h : ∀ t ∈ chain, t ∈ req.tasks) :
    ((chain.map Task.id).map (chainDays req)).sum = (chain.map (dayCount req)).sum := by
  rw [List.map_map]
  exact congrArg List.sum (List.map_congr_left fun t ht => chainDays_eq hids (h t ht))

/-- The forward pass of the critical path ends with the longest chain of tasks. -/
theorem isGreatest_chain (hids : (req.tasks.map Task.id).Nodup) (hclosed : req.Closed) {order : List UUID}
    (htopo : (buildDag req.tasks req.dependencies).IsTopologicalOrder order) :
    IsGreatest {n | ∃ chain, req.IsTaskChain chain ∧ (chain.map (dayCount req)).sum = n}
      (ForwardPass.peak (fun t => LongestPath.starts (buildDag req.tasks req.dependencies).predecessors
        (fun u _ => chainDays req u) order t + chainDays req t) order) := by
  have hmem : ∀ v, v ∈ order ↔ v ∈ req.tasks.map Task.id := by
    refine fun v => ⟨fun hv => keys_tasksById.mp (mem_keys_of_order hclosed htopo v hv), fun hv => ?_⟩
    exact (htopo.mem_iff v).mpr (mem_nodes_buildDag_iff.mpr (Or.inl hv))
  have hgreatest := @LongestPath.isGreatest_weight UUID _ (buildDag req.tasks req.dependencies).predecessors
    (fun u _ => chainDays req u) order (ordered_of_topological htopo) (chainDays req)
  convert hgreatest using 1
  ext n
  simp only [Set.mem_ofPred_eq, LongestPath.weight_eq_sum]
  constructor
  · rintro ⟨chain, hchain, rfl⟩
    refine ⟨chain.map Task.id, isChain_ids.mpr hchain.linked, fun v hv => ?_, sum_chainDays hids hchain.tasks⟩
    obtain ⟨t, ht, rfl⟩ := List.mem_map.mp hv
    exact (hmem _).mpr (List.mem_map_of_mem (hchain.tasks t ht))
  · rintro ⟨path, hpath, hin, rfl⟩
    obtain ⟨chain, htasks, rfl⟩ := exists_tasks_of_ids fun v hv => (hmem v).mp (hin v hv)
    exact ⟨chain, ⟨htasks, isChain_ids.mp hpath⟩, (sum_chainDays hids htasks).symm⟩

end Chains

/-- The critical path ends on the working day that the longest chain takes, and
is shown with two working days more. -/
theorem criticalPath_longest (s : GreedySolver) (req : PlanRequest) (start : Date)
    (hids : (req.tasks.map Task.id).Nodup) (hclosed : req.Closed) (hacyclic : ¬ req.Cyclic) :
    (req.tasks = [] → s.criticalPathEnd req start = .ok (firstWorkingDay s.calendar start)) ∧
      (req.tasks ≠ [] → ∃ L : ℕ+, s.criticalPathEnd req start = .ok (nthWorkingDay s.calendar start L) ∧
        IsGreatest {n | ∃ chain, req.IsTaskChain chain ∧ (chain.map (dayCount req)).sum = n} L) ∧
      ∃ e, s.criticalPathEnd req start = .ok e ∧ s.presentedEarliestEnd req start =
        .ok (s.calendar.nextWorkingDay (s.calendar.nextWorkingDay e)) := by
  obtain ⟨order, hrun⟩ := (run_isSome_iff (s := s)).mpr hacyclic
  have htopo := s.topologicalSort.sound _ _ hrun
  have hend := s.criticalPathEnd_ok hclosed start hrun
  have hgreatest := isGreatest_chain hids hclosed htopo
  refine ⟨fun hnil => ?_, fun hne => ?_, _, hend, by rw [GreedySolver.presentedEarliestEnd, hend]; rfl⟩
  · obtain ⟨chain, hchain, hsum⟩ := hgreatest.1
    have hempty : chain = [] := List.eq_nil_iff_forall_not_mem.mpr fun t ht => by simpa [hnil] using hchain.tasks t ht
    rw [hend, ← hsum, hempty]
    rfl
  · obtain ⟨t, ht⟩ := List.exists_mem_of_ne_nil _ hne
    have hone : dayCount req t ≤ _ := hgreatest.2 ⟨[t], ⟨by simpa using ht, List.isChain_singleton t⟩, by simp⟩
    have hpos : 0 < dayCount req t := dayCount_eq ▸ (durationDays t (peopleById req)).pos
    exact ⟨⟨_, hpos.trans_le hone⟩, hend, hgreatest⟩

theorem criticalPath_longest_review :
    (reviewRequest.tasks = [] → GreedySolver.onWeekdays.criticalPathEnd reviewRequest 1 =
      .ok (firstWorkingDay GreedySolver.onWeekdays.calendar 1)) ∧
    (reviewRequest.tasks ≠ [] → ∃ L : ℕ+, GreedySolver.onWeekdays.criticalPathEnd reviewRequest 1 =
      .ok (nthWorkingDay GreedySolver.onWeekdays.calendar 1 L) ∧ IsGreatest {n | ∃ chain,
        reviewRequest.IsTaskChain chain ∧ (chain.map (dayCount reviewRequest)).sum = n} L) ∧
    ∃ e, GreedySolver.onWeekdays.criticalPathEnd reviewRequest 1 = .ok e ∧
      GreedySolver.onWeekdays.presentedEarliestEnd reviewRequest 1 = .ok (GreedySolver.onWeekdays.calendar.nextWorkingDay
        (GreedySolver.onWeekdays.calendar.nextWorkingDay e)) := by
  have hrun : GreedySolver.onWeekdays.topologicalSort.run
      (buildDag reviewRequest.tasks reviewRequest.dependencies) = some [10, 11] := rfl
  have hclosed : reviewRequest.Closed := by
    unfold PlanRequest.Closed
    decide
  have hacyclic : ¬ reviewRequest.Cyclic := (run_isSome_iff (s := .onWeekdays)).mp ⟨[10, 11], hrun⟩
  exact criticalPath_longest .onWeekdays reviewRequest 1 (by decide) hclosed hacyclic

/-- What was planned has an earliest end if and only if its dependencies stay
within the request, though the plan itself skips those that do not. -/
theorem backward_after_plan_iff (s : GreedySolver) (req : PlanRequest) (res : PlanResult)
    (_ : (req.tasks.map Task.id).Nodup) (hplan : s.plan req = .ok res) (start : Date) :
    ((∃ e, s.criticalPathEnd req start = .ok e) ∧ ∃ e, s.presentedEarliestEnd req start = .ok e) ↔ req.Closed := by
  constructor
  · rintro ⟨⟨e, he⟩, -⟩
    exact s.closed_of_criticalPathEnd he
  · intro hclosed
    obtain ⟨order, st, hrun, -, -⟩ := plan_ok hplan
    have hend := s.criticalPathEnd_ok hclosed start hrun
    exact ⟨⟨_, hend⟩, _, by rw [GreedySolver.presentedEarliestEnd, hend]; rfl⟩

theorem backward_after_plan_iff_review : ∃ res, GreedySolver.onWeekdays.plan reviewRequest = .ok res ∧
    (((∃ e, GreedySolver.onWeekdays.criticalPathEnd reviewRequest 1 = .ok e) ∧
      ∃ e, GreedySolver.onWeekdays.presentedEarliestEnd reviewRequest 1 = .ok e) ↔ reviewRequest.Closed) :=
  ⟨_, rfl, backward_after_plan_iff GreedySolver.onWeekdays reviewRequest _ (by decide) rfl 1⟩

/-- The draft waits for a task that is not in the request. -/
def orphanRequest : PlanRequest where
  people := [⟨1, "Анна", 8⟩]
  tasks := [{ id := 7, name := "Черновик", durationHours := 8, allowedPersonIds := [1] }]
  dependencies := [⟨7, 5, .FS, 0⟩]
  horizonStart := Date.ofYmd 2026 6 1

theorem orphan_planned_without_end : ∃ res, GreedySolver.onWeekdays.plan orphanRequest = .ok res ∧
    (orphanRequest.tasks.map Task.id).Nodup ∧
    GreedySolver.onWeekdays.criticalPathEnd orphanRequest orphanRequest.horizonStart = .error .missingTask ∧
    GreedySolver.onWeekdays.presentedEarliestEnd orphanRequest orphanRequest.horizonStart = .error .missingTask :=
  ⟨_, rfl, by decide, rfl, rfl⟩

end Planner
