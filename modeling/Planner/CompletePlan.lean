import Planner.PinnedHours

/-! A plan is complete and in order: every task of the request once, after all
it depends on, and the immovable tasks where they are held. -/

namespace Planner

/-- A dependency makes the task `v` wait for `u`. -/
def PlanRequest.Requires (req : PlanRequest) (u v : UUID) : Prop :=
  ∃ d ∈ req.dependencies, d.dependsOnId = u ∧ d.taskId = v

/-- All hours of the immovable tasks are on the books of `st`, with the existing
load and the hours of the tasks placed since. -/
def CountsPinned (req : PlanRequest) (st : PlanState) : Prop :=
  ∃ placed, st.assignments.values = req.tasks.filterMap Task.pinned? ++ placed ∧
    ∀ p d, st.idx.usedOn p d = hoursOn req.existingAllocations p d + hoursOn req.pinnedAllocations p d +
      hoursOn (placed.flatMap Assignment.allocations) p d

section Order

variable {s : GreedySolver} {req : PlanRequest} {res : PlanResult}

theorem edge_of_requires {u v : UUID} (h : req.Requires u v) :
    (buildDag req.tasks req.dependencies).Edge u v := by
  obtain ⟨d, hd, rfl, rfl⟩ := h
  rw [EdgeGraph.Edge, edges_buildDag, OrdDict.mem_keys_ofList, List.map_map]
  exact List.mem_map.mpr ⟨d, hd, rfl⟩

theorem plan_filed (hids : (req.tasks.map Task.id).Nodup) (h : s.plan req = .ok res) :
    ∃ order, ∃ st : PlanState, s.topologicalSort.run (buildDag req.tasks req.dependencies) = some order ∧
      res.assignments = order.filterMap st.assignments.get? ∧
      (∀ tid a, st.assignments.get? tid = some a → a.taskId = tid) ∧
      ∀ tid ∈ req.tasks.map Task.id, ∃ a, st.assignments.get? tid = some a ∧ a ∈ res.assignments := by
  obtain ⟨order, st, hrun, hall, rfl⟩ := plan_ok h
  refine ⟨order, st, hrun, rfl, fun tid a ha => assignment_taskId hall ha, fun tid htid => ?_⟩
  obtain ⟨t, ht, rfl⟩ := List.mem_map.mp htid
  have hmem : t.id ∈ order := mem_order_of_task hrun ht
  have hk := placeAll_places hmem hall (tasksById_get? hids ht)
  obtain ⟨a, ha⟩ := Option.isSome_iff_exists.mp (OrdDict.mem_keys.mp hk)
  exact ⟨a, ha, mem_planResult.mpr ⟨t.id, hmem, ha⟩⟩

theorem taskIds_perm (hids : (req.tasks.map Task.id).Nodup) (h : s.plan req = .ok res) :
    (res.assignments.map Assignment.taskId).Perm (req.tasks.map Task.id) := by
  obtain ⟨hnodup, hmem⟩ := plan_taskIds h
  obtain ⟨order, st, -, -, htaskId, hall⟩ := plan_filed hids h
  refine (List.perm_ext_iff_of_nodup hnodup hids).mpr fun tid => ⟨fun htid => ?_, fun htid => ?_⟩
  · obtain ⟨a, ha, rfl⟩ := List.mem_map.mp htid
    exact hmem a ha
  · obtain ⟨a, hget, ha⟩ := hall tid htid
    exact List.mem_map.mpr ⟨a, ha, htaskId tid a hget⟩

/-- What a task waits for, directly or through nodes that are no tasks, stands before it. -/
theorem required_before (hids : (req.tasks.map Task.id).Nodup) (h : s.plan req = .ok res)
    {pre post : List Assignment} {a : Assignment} (he : res.assignments = pre ++ a :: post) {u : UUID}
    (hu : u ∈ req.tasks.map Task.id) (hreq : Relation.TransGen req.Requires u a.taskId) :
    u ∈ pre.map Assignment.taskId := by
  obtain ⟨order, st, hrun, hres, htaskId, hall⟩ := plan_filed hids h
  rw [hres] at he
  obtain ⟨l₁, l₂, rfl, hl₁, hl₂⟩ := List.filterMap_eq_append_iff.mp he
  obtain ⟨l₃, tid, l₄, rfl, hnone, hget, hl₄⟩ := List.filterMap_eq_cons_iff.mp hl₂
  rw [htaskId tid a hget] at hreq
  have hbefore : u ∈ l₁ ++ l₃ := by
    refine (s.topologicalSort.sound _ _ hrun).ancestor_mem (List.append_assoc l₁ l₃ (tid :: l₄)).symm ?_
    exact Relation.TransGen.mono (fun _ _ => edge_of_requires) _ _ hreq
  obtain ⟨b, hb, -⟩ := hall u hu
  rcases List.mem_append.mp hbefore with hm | hm
  · rw [← hl₁]
    exact List.mem_map.mpr ⟨b, List.mem_filterMap.mpr ⟨u, hm, hb⟩, htaskId u b hb⟩
  · rw [hnone u hm] at hb
    cases hb

theorem pinned_assignment (hids : (req.tasks.map Task.id).Nodup) (h : s.plan req = .ok res) {t : Task}
    (ht : t ∈ req.tasks) {b : Assignment} (hp : t.pinned? = some b) {a : Assignment} (ha : a ∈ res.assignments)
    (hid : a.taskId = t.id) : a = b := by
  rcases turn_of_assignment h ha with ⟨u, hu, hpu⟩ | ⟨task, before, after, hturn, hfiled⟩
  · have hsame : u = t := List.inj_on_of_nodup_map hids hu ht ((Task.pinned?_taskId hpu).symm.trans hid)
    rw [hsame, hp] at hpu
    exact (Option.some.inj hpu).symm
  · -- a task that had a turn was not in place before
    exfalso
    obtain ⟨order, pre, post, final, -, -, hpre, -⟩ := hturn.pass
    obtain ⟨person, p, idx, -, -, rfl⟩ := hturn.placed
    have ha' : a.taskId = task.id := by
      have hself := OrdDict.get?_insert_self before.assignments task.id (p.toAssignment task.id person)
      rw [← Option.some.inj (hself.symm.trans hfiled)]
      rfl
    have hsame : t = task := List.inj_on_of_nodup_map hids ht hturn.mem (hid.symm.trans ha')
    have hheld := startState_pinned s.calendar (nodup_pinned_ids hids) ht hp
    have hk := placeAll_keeps hheld hpre
    exact hturn.unplaced (OrdDict.mem_keys.mpr (by rw [← hsame, hk]; rfl))

theorem PlacementTurn.countsPinned (hids : (req.tasks.map Task.id).Nodup) {task : Task} {before after : PlanState}
    (h : PlacementTurn s req res task before after) : CountsPinned req before := by
  obtain ⟨order, pre, post, final, -, -, hpre, -⟩ := h.pass
  obtain ⟨placed, hbooks⟩ := accounted_of_placeAll hpre
  refine ⟨placed, ?_, fun p d => ?_⟩
  · rw [hbooks.values_eq, startState_values s.calendar req (nodup_pinned_ids hids)]
  · rw [hbooks.usedOn_eq, hoursOn_append, hoursOn_append]

end Order

/-- One assignment for every task and none besides, each after what it waits for;
immovable tasks at their dates with their person, and counted at every turn. -/
theorem plan_complete (s : GreedySolver) (req : PlanRequest) (res : PlanResult)
    (hids : (req.tasks.map Task.id).Nodup) (h : s.plan req = .ok res) :
    (res.assignments.map Assignment.taskId).Perm (req.tasks.map Task.id) ∧
      (∀ pre a post, res.assignments = pre ++ a :: post → ∀ u ∈ req.tasks.map Task.id,
        Relation.TransGen req.Requires u a.taskId → u ∈ pre.map Assignment.taskId) ∧
      (∀ t ∈ req.tasks, ∀ start pid, t.status = .done → t.fixedStart = some start → t.fixedAssigneeId = some pid →
        ∀ a ∈ res.assignments, a.taskId = t.id →
          a.personId = pid ∧ a.startDate = start ∧ a.endDate = t.fixedEnd.getD start) ∧
      (∀ t ∈ req.tasks, t.pinned? = none → ∃ before after, PlacementTurn s req res t before after) ∧
      ∀ t before after, PlacementTurn s req res t before after → CountsPinned req before := by
  refine ⟨taskIds_perm hids h, fun pre a post he u hu hreq => required_before hids h he hu hreq, ?_, ?_,
    fun t before after hturn => hturn.countsPinned hids⟩
  · intro t ht start pid hdone hstart hpid a ha hid
    have hp : t.pinned? = some ⟨t.id, pid, start, t.fixedEnd.getD start, [⟨pid, start, t.durationHours⟩]⟩ := by
      simp only [Task.pinned?, hdone, hstart, hpid]
    rw [pinned_assignment hids h ht hp ha hid]
    exact ⟨rfl, rfl, rfl⟩
  · intro t ht hp
    have hown : ∀ u ∈ req.tasks, u.id = t.id → u = t := fun u hu hid => List.inj_on_of_nodup_map hids hu ht hid
    exact exists_placementTurn h ht hp hown

/-- The shooting is over; the credits wait for it through a node that is no task. -/
def shootingOverRequest : PlanRequest where
  people := [⟨1, "Anna", 8⟩]
  tasks := [{ id := 8, name := "Титры", durationHours := 8, allowedPersonIds := [1] },
    { id := 7, name := "Съёмка", durationHours := 8, allowedPersonIds := [1], status := .done
      fixedStart := some (Date.ofYmd 2026 6 1), fixedAssigneeId := some 1 }]
  dependencies := [⟨8, 5, .FS, 0⟩, ⟨5, 7, .FS, 0⟩]
  horizonStart := Date.ofYmd 2026 6 1

theorem plan_complete_shooting : ∃ res, GreedySolver.onWeekdays.plan shootingOverRequest = .ok res ∧
    (res.assignments.map Assignment.taskId).Perm (shootingOverRequest.tasks.map Task.id) ∧
    (∀ pre a post, res.assignments = pre ++ a :: post → ∀ u ∈ shootingOverRequest.tasks.map Task.id,
      Relation.TransGen shootingOverRequest.Requires u a.taskId → u ∈ pre.map Assignment.taskId) ∧
    (∀ t ∈ shootingOverRequest.tasks, ∀ start pid, t.status = .done → t.fixedStart = some start →
      t.fixedAssigneeId = some pid → ∀ a ∈ res.assignments, a.taskId = t.id →
        a.personId = pid ∧ a.startDate = start ∧ a.endDate = t.fixedEnd.getD start) ∧
    (∀ t ∈ shootingOverRequest.tasks, t.pinned? = none → ∃ before after,
      PlacementTurn GreedySolver.onWeekdays shootingOverRequest res t before after) ∧
    ∀ t before after, PlacementTurn GreedySolver.onWeekdays shootingOverRequest res t before after →
      CountsPinned shootingOverRequest before :=
  ⟨_, rfl, plan_complete GreedySolver.onWeekdays shootingOverRequest _ (by decide) rfl⟩

end Planner
