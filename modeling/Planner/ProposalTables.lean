import Planner.Accounting
import Planner.Proposal

/-! The tables after a proposal, read one by one. Nothing that was there before
changes, and a well-formed store stays well-formed. -/

namespace Planner

section Instantiate

variable {template : ProjectTemplate} {projectId : UUID} {ids : List UUID} {tasks : List Task}
  {deps : List Dependency}

theorem instantiate_ok (h : instantiate template projectId ids = .ok (tasks, deps)) :
    (∀ e ∈ template.edges, e.dependsOnOrd ∈ (ordToId template ids).keys) ∧
      tasks = template.tasks.map (fun spec =>
        spec.toTask ((ordToId template ids).getD spec.ord 0) projectId) ∧
      deps = template.edges.map fun e => e.toDependency (ordToId template ids) := by
  unfold instantiate at h
  dsimp only at h
  split at h
  · rename_i hall
    simp only [Except.ok.injEq, Prod.mk.injEq] at h
    refine ⟨fun e he => OrdDict.contains_iff.mp (List.all_eq_true.mp hall e he), h.1.symm, h.2.symm⟩
  · cases h

/-- Every ord of the template has an id that was drawn for it. -/
theorem ordToId_get? (hlen : ids.length = template.tasks.length) {ord : Int}
    (hord : ord ∈ template.tasks.map TemplateTaskSpec.ord) :
    ∃ id ∈ ids, (ordToId template ids).get? ord = some id := by
  have hk : ord ∈ (ordToId template ids).keys := by
    rw [ordToId, OrdDict.mem_keys_ofList, List.map_fst_zip (by simp [hlen])]
    exact hord
  obtain ⟨id, hid⟩ := Option.isSome_iff_exists.mp (OrdDict.mem_keys.mp hk)
  exact ⟨id, (List.of_mem_zip (OrdDict.mem_of_get?_ofList hid)).2, hid⟩

theorem instantiate_ids (h : instantiate template projectId ids = .ok (tasks, deps))
    (hlen : ids.length = template.tasks.length) : ∀ t ∈ tasks, t.id ∈ ids := by
  obtain ⟨-, rfl, -⟩ := instantiate_ok h
  intro t ht
  obtain ⟨spec, hspec, rfl⟩ := List.mem_map.mp ht
  obtain ⟨id, hid, hget⟩ := ordToId_get? hlen (List.mem_map_of_mem hspec)
  simpa [TemplateTaskSpec.toTask, OrdDict.getD, hget] using hid

theorem instantiate_unpinned (h : instantiate template projectId ids = .ok (tasks, deps)) :
    ∀ t ∈ tasks, t.pinned? = none := by
  obtain ⟨-, rfl, -⟩ := instantiate_ok h
  intro t ht
  obtain ⟨spec, -, rfl⟩ := List.mem_map.mp ht
  rfl

end Instantiate

theorem assignmentRows_task {tasks : List Task} {byTask : OrdDict UUID Assignment}
    {r : (UUID × UUID) × Int} (hr : r ∈ assignmentRows tasks byTask) :
    r.1.1 ∈ tasks.map Task.id := by
  obtain ⟨t, ht, hr⟩ := List.mem_flatMap.mp hr
  split at hr
  · simp at hr
  · obtain ⟨e, -, rfl⟩ := List.mem_map.mp hr
    exact List.mem_map_of_mem ht

section Tables

variable {solver : GreedySolver} {intent : AddProjectIntent} {actor : Option PersonRecord}
  {people : List Person} {template : ProjectTemplate} {today : Date}
  {existing : List DayAllocation} {overrides : List DayOverride} {s s' : Store}
  {result : AddProjectResult}

namespace Proposed

variable (h : Proposed solver intent actor people template today existing overrides s result s')

include h

theorem task_ids : ∀ t ∈ result.tasks, s.nextId < t.id ∧ t.id < result.planVersionId := by
  obtain ⟨deps, hinst, -⟩ := h.planned
  intro t ht
  have hm := instantiate_ids hinst (by simp) t ht
  rw [List.mem_range'_1] at hm
  rw [h.version_id]
  lia

theorem planVersions : s'.planVersions = s.planVersions.insert result.planVersionId
    ⟨result.project.id, .proposed, serializePlan result.plan, actor.map PersonRecord.id⟩ := by
  obtain ⟨title, row, -, rfl⟩ := h.recorded
  rw [h.version_id, h.project_id]
  rfl

theorem nextId : s'.nextId = result.planVersionId + 1 := by
  obtain ⟨title, row, -, rfl⟩ := h.recorded
  rw [h.version_id]
  rfl

theorem dependencies : s'.dependencies = s.dependencies := by
  obtain ⟨title, row, -, rfl⟩ := h.recorded
  rfl

theorem people_eq : s'.people = s.people := by
  obtain ⟨title, row, -, rfl⟩ := h.recorded
  rfl

theorem dayOverrides : s'.dayOverrides = s.dayOverrides := by
  obtain ⟨title, row, -, rfl⟩ := h.recorded
  rfl

theorem tasks : s'.tasks = s.tasks.insertAll (result.tasks.map fun t =>
    (t.id, taskRow result.project.id (scheduleOf result.plan.assignments) t)) := by
  obtain ⟨title, row, -, rfl⟩ := h.recorded
  rw [h.project_id]
  rfl

theorem assignments : s'.assignments =
    s.assignments.insertAll (assignmentRows result.tasks (scheduleOf result.plan.assignments)) := by
  obtain ⟨title, row, -, rfl⟩ := h.recorded
  rfl

theorem projects : ∃ row, row.status = .planning ∧
    s'.projects = s.projects.insert result.project.id row := by
  obtain ⟨title, row, hrow, rfl⟩ := h.recorded
  exact ⟨row, hrow, h.project_id ▸ rfl⟩

theorem mem_keys_tasks {tid : UUID} :
    tid ∈ s'.tasks.keys ↔ tid ∈ result.tasks.map Task.id ∨ tid ∈ s.tasks.keys := by
  rw [h.tasks, OrdDict.mem_keys_insertAll]
  simp [Function.comp_def]

theorem version_new (hs : s.WF) : result.planVersionId ∉ s.planVersions.keys := fun hk => by
  have hlt := hs.version_lt _ hk
  have hid := h.version_id
  lia

theorem planAssignments (hs : s.WF) :
    s'.planAssignments = s.planAssignments ++ result.plan.assignments := by
  simp only [Store.planAssignments, h.planVersions, OrdDict.values_insert_of_not_mem (h.version_new hs),
    List.flatMap_append, List.flatMap_cons, List.flatMap_nil, List.append_nil, serializePlan]

theorem plan_tasks : (result.plan.assignments.map Assignment.taskId).Nodup ∧
    ∀ a ∈ result.plan.assignments, a.taskId ∈ result.tasks.map Task.id := by
  obtain ⟨deps, -, hplan⟩ := h.planned
  exact plan_taskIds hplan

/-- Where every assignment of the proposal comes from. -/
theorem placed {a : Assignment} (ha : a ∈ result.plan.assignments) :
    ∃ t ∈ result.tasks, ∃ earliest free allowed person p, today ≤ earliest ∧
      Placed t earliest solver.calendar free (today + horizonDays) allowed person p ∧
      a = p.toAssignment t.id person := by
  obtain ⟨deps, hinst, hplan⟩ := h.planned
  have hpin : (projectRequest people result.tasks deps today overrides existing
      intent.deadline).Unpinned := instantiate_unpinned hinst
  obtain ⟨t, ht, earliest, free, person, p, hle, hp, rfl⟩ := placed_of_plan hpin hplan ha
  exact ⟨t, ht, earliest, free, _, person, p, hle, hp, rfl⟩

/-- The rows of the proposal are about its own tasks and people who are there. -/
theorem row_keys {k : UUID × UUID}
    (hk : k ∈ (assignmentRows result.tasks (scheduleOf result.plan.assignments)).map Prod.fst) :
    k.1 ∈ result.tasks.map Task.id ∧ k.2 ∈ s.people.keys := by
  obtain ⟨r, hr, rfl⟩ := List.mem_map.mp hk
  exact ⟨assignmentRows_task hr, (h.recordable.rows_new r hr).1⟩

theorem task_row {row : TaskRow} (hrow : row ∈ s'.tasks.values) :
    row.projectId = result.project.id ∨ row ∈ s.tasks.values := by
  obtain ⟨t, ht⟩ := OrdDict.mem_values.mp hrow
  rw [h.tasks] at ht
  rcases OrdDict.mem_of_get?_insertAll ht with hm | ht
  · obtain ⟨u, -, he⟩ := List.mem_map.mp hm
    exact Or.inl ((Prod.mk.inj he).2 ▸ rfl)
  · exact Or.inr (OrdDict.mem_values.mpr ⟨t, ht⟩)

/-- No project has two versions: that of the proposal is new. -/
theorem one_version (hs : s.WF) : (s'.planVersions.values.map PlanVersionRow.projectId).Nodup := by
  rw [h.planVersions, OrdDict.values_insert_of_not_mem (h.version_new hs), List.map_append, List.nodup_append]
  refine ⟨hs.one_version, by simp, ?_⟩
  rintro p hp q hq rfl
  obtain ⟨pv, hpv, rfl⟩ := List.mem_map.mp hp
  simp only [List.map_cons, List.map_nil, List.mem_singleton] at hq
  exact h.recordable.project_new (h.project_id ▸ hq ▸ hs.version_project pv hpv)

theorem planned_once (hs : s.WF) : (s'.planAssignments.map Assignment.taskId).Nodup := by
  rw [h.planAssignments hs, List.map_append, List.nodup_append]
  refine ⟨hs.planned_once, h.plan_tasks.1, ?_⟩
  rintro t ht u hu rfl
  obtain ⟨a, ha, rfl⟩ := List.mem_map.mp ht
  obtain ⟨b, hb, hab⟩ := List.mem_map.mp hu
  obtain ⟨w, hw, hwid⟩ := List.mem_map.mp (h.plan_tasks.2 b hb)
  exact h.recordable.tasks_new w hw (hwid ▸ hab ▸ hs.planned_task a ha)

theorem wf (hs : s.WF) : s'.WF := by
  obtain ⟨row, -, hprojects⟩ := h.projects
  have hnext := h.nextId
  have hver := h.version_id
  have hpid := h.project_id
  constructor
  · intro p hp
    rw [hprojects, OrdDict.mem_keys_insert] at hp
    rcases hp with rfl | hp
    · lia
    · have := hs.project_lt p hp
      lia
  · intro t ht
    rcases h.mem_keys_tasks.mp ht with ht | ht
    · obtain ⟨u, hu, rfl⟩ := List.mem_map.mp ht
      have := h.task_ids u hu
      lia
    · have := hs.task_lt t ht
      lia
  · intro v hv
    rw [h.planVersions, OrdDict.mem_keys_insert] at hv
    rcases hv with rfl | hv
    · lia
    · have := hs.version_lt v hv
      lia
  · intro trow hrow
    rw [hprojects, OrdDict.mem_keys_insert]
    exact (h.task_row hrow).imp_right (hs.task_project trow)
  · intro k hk
    rw [h.assignments, OrdDict.mem_keys_insertAll] at hk
    rw [h.mem_keys_tasks, h.people_eq]
    rcases hk with hk | hk
    · exact ⟨Or.inl (h.row_keys hk).1, (h.row_keys hk).2⟩
    · exact ⟨Or.inr (hs.assignment_keys k hk).1, (hs.assignment_keys k hk).2⟩
  · intro k hk
    rw [h.dayOverrides] at hk
    rw [h.people_eq]
    exact hs.override_person k hk
  · intro k hk
    rw [h.dependencies] at hk
    rw [h.mem_keys_tasks, h.mem_keys_tasks]
    exact ⟨Or.inr (hs.dependency_tasks k hk).1, Or.inr (hs.dependency_tasks k hk).2⟩
  · intro pv hpv
    rw [hprojects, OrdDict.mem_keys_insert]
    rw [h.planVersions] at hpv
    rcases OrdDict.mem_values_insert hpv with rfl | hpv
    · exact Or.inl rfl
    · exact Or.inr (hs.version_project pv hpv)
  · exact h.one_version hs
  · intro a ha
    rw [h.planAssignments hs] at ha
    rw [h.mem_keys_tasks]
    rcases List.mem_append.mp ha with ha | ha
    · exact Or.inr (hs.planned_task a ha)
    · exact Or.inl (h.plan_tasks.2 a ha)
  · exact h.planned_once hs

end Proposed

end Tables

namespace Store.WF

variable {s : Store} (hs : s.WF)

include hs

theorem drawn (n : Nat) : (s.drawn n).WF :=
  { hs with
    project_lt := fun p hp => Nat.lt_add_right n (hs.project_lt p hp)
    task_lt := fun t ht => Nat.lt_add_right n (hs.task_lt t ht)
    version_lt := fun v hv => Nat.lt_add_right n (hs.version_lt v hv) }

theorem putProject {p : UUID} (hp : p < s.nextId) (row : ProjectRow) : (s.putProject p row).WF :=
  { hs with
    project_lt := fun q hq => (OrdDict.mem_keys_insert.mp hq).elim (fun he => he ▸ hp) (hs.project_lt q)
    task_project := fun trow ht => OrdDict.mem_keys_insert.mpr (Or.inr (hs.task_project trow ht))
    version_project := fun pv hpv => OrdDict.mem_keys_insert.mpr (Or.inr (hs.version_project pv hpv)) }

end Store.WF

namespace Abandoned

variable {s s' : Store} (h : Abandoned s s')

include h

theorem planVersions : s'.planVersions = s.planVersions := by
  obtain ⟨n, rfl | ⟨row, -, -, rfl⟩⟩ := h <;> rfl

theorem assignments : s'.assignments = s.assignments := by
  obtain ⟨n, rfl | ⟨row, -, -, rfl⟩⟩ := h <;> rfl

theorem people : s'.people = s.people := by
  obtain ⟨n, rfl | ⟨row, -, -, rfl⟩⟩ := h <;> rfl

theorem tasks : s'.tasks = s.tasks := by
  obtain ⟨n, rfl | ⟨row, -, -, rfl⟩⟩ := h <;> rfl

theorem dependencies : s'.dependencies = s.dependencies := by
  obtain ⟨n, rfl | ⟨row, -, -, rfl⟩⟩ := h <;> rfl

theorem wf (hs : s.WF) : s'.WF := by
  obtain ⟨n, rfl | ⟨row, hlt, -, rfl⟩⟩ := h
  · exact hs.drawn n
  · exact (hs.drawn n).putProject hlt row

end Abandoned

end Planner
