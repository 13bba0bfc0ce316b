import Planner.AddProject

/-! What a proposal leaves in the tables: a fresh project with its tasks, rows
and one proposed version, or at most a project without tasks. -/

namespace Planner

open Program

/-- The tables after the four writes of a proposal. -/
def Store.recorded (s : Store) (title : String) (actorId : Option UUID) (projectId : UUID)
    (row : ProjectRow) (tasks : List Task) (plan : PlanResult) : Store :=
  (((s.putProject projectId row).putTasks projectId tasks plan.assignments).putVersion
    ⟨projectId, .proposed, serializePlan plan, actorId⟩).putAudit
      ⟨actorId, "add_project", "project", some projectId, some [("title", .text title)]⟩

/-- When the four writes of a proposal go through. -/
structure Store.Recordable (s : Store) (actorId : Option UUID) (projectId : UUID)
    (tasks : List Task) (assignments : List Assignment) : Prop where
  knows : s.knows actorId
  project_new : projectId ∉ s.projects.keys
  tasks_nodup : (tasks.map Task.id).Nodup
  tasks_new : ∀ t ∈ tasks, t.id ∉ s.tasks.keys
  rows_new : ∀ r ∈ assignmentRows tasks (scheduleOf assignments),
    r.1.2 ∈ s.people.keys ∧ r.1 ∉ s.assignments.keys

theorem Store.accepts_putProject {s : Store} {pid : UUID} {row : ProjectRow} {tasks : List Task}
    {assignments : List Assignment} :
    (s.putProject pid row).Accepts pid tasks assignments ↔
      (tasks.map Task.id).Nodup ∧ (∀ t ∈ tasks, t.id ∉ s.tasks.keys) ∧
        ∀ r ∈ assignmentRows tasks (scheduleOf assignments),
          r.1.2 ∈ s.people.keys ∧ r.1 ∉ s.assignments.keys := by
  have hp : pid ∈ (s.putProject pid row).projects.keys := OrdDict.mem_keys_insert.mpr (Or.inl rfl)
  simp only [Store.Accepts, hp, true_and]
  rfl

theorem recordProject_cases (title : String) (intent : AddProjectIntent) (actorId : Option UUID)
    (pid : UUID) (tasks : List Task) (plan : PlanResult) (s : Store) :
    (¬ s.Recordable actorId pid tasks plan.assignments ∧
      ∃ s', (recordProject title intent actorId pid tasks plan).run s = (.error .integrity, s') ∧
        (s' = s ∨ ∃ row, pid ∉ s.projects.keys ∧ s' = s.putProject pid row)) ∨
    s.Recordable actorId pid tasks plan.assignments ∧
      ∃ project pv row, (recordProject title intent actorId pid tasks plan).run s =
          (.ok (project, pv), s.recorded title actorId pid row tasks plan) ∧
        project.id = pid ∧ pv.id = s.nextId ∧ row.status = .planning := by
  by_cases hc : s.knows actorId ∧ pid ∉ s.projects.keys
  · obtain ⟨project, row, hcreate, hid, hrow⟩ : ∃ project row,
        (Repo.createProject title intent.templateCode intent.deadline intent.briefReturnDate actorId
          pid).run s = (.ok project, s.putProject pid row) ∧ project.id = pid ∧
        row.status = .planning := by
      simp only [Repo.createProject, run_call, if_pos hc]
      exact ⟨_, _, rfl, rfl, rfl⟩
    simp only [recordProject]
    rw [run_bind_of_ok hcreate, hid]
    by_cases hacc : (s.putProject pid row).Accepts pid tasks plan.assignments
    · obtain ⟨hnodup, htasks, hrows⟩ := Store.accepts_putProject.mp hacc
      refine Or.inr ⟨⟨hc.1, hc.2, hnodup, htasks, hrows⟩, project,
        ⟨s.nextId, pid, .proposed, serializePlan plan⟩, row, ?_, hid, rfl, hrow⟩
      have hsave : (Repo.saveProjectTasks pid tasks plan.assignments).run (s.putProject pid row) =
          (.ok (), (s.putProject pid row).putTasks pid tasks plan.assignments) := by
        simp only [Repo.saveProjectTasks, run_call, if_pos hacc]
      have hver : pid ∈ ((s.putProject pid row).putTasks pid tasks plan.assignments).projects.keys ∧
          ((s.putProject pid row).putTasks pid tasks plan.assignments).knows actorId :=
        ⟨OrdDict.mem_keys_insert.mpr (Or.inl rfl), hc.1⟩
      have haudit : (((s.putProject pid row).putTasks pid tasks plan.assignments).putVersion
          ⟨pid, .proposed, serializePlan plan, actorId⟩).knows actorId := hc.1
      rw [run_bind_of_ok hsave, run_bind, Repo.savePlanVersion, run_call, if_pos hver]
      simp only [run_bind, Repo.addAudit, run_call, if_pos haudit]
      rfl
    · refine Or.inl ⟨fun hr => hacc (Store.accepts_putProject.mpr
        ⟨hr.tasks_nodup, hr.tasks_new, hr.rows_new⟩), s.putProject pid row, ?_, Or.inr ⟨row, hc.2, rfl⟩⟩
      have hsave : (Repo.saveProjectTasks pid tasks plan.assignments).run (s.putProject pid row) =
          (.error .integrity, s.putProject pid row) := by
        simp only [Repo.saveProjectTasks, run_call, if_neg hacc]
      rw [run_bind_of_error hsave]
  · refine Or.inl ⟨fun hr => hc ⟨hr.knows, hr.project_new⟩, s, ?_, Or.inl rfl⟩
    have hcreate : (Repo.createProject title intent.templateCode intent.deadline
        intent.briefReturnDate actorId pid).run s = (.error .integrity, s) := by
      simp only [Repo.createProject, run_call, if_neg hc]
    simp only [recordProject]
    rw [run_bind_of_error hcreate]

/-- The card may leave its page id on the project row, and nothing else. -/
theorem mirrorProject_run (sink : Option ProjectSink) (card : SinkProject) (pid : UUID) (s : Store) :
    ∃ page s', (mirrorProject sink card pid).run s = (.ok page, s') ∧
      (s' = s ∨ ∃ id, s' = s.modifyProject pid ({ · with notionPageId := some id })) := by
  cases sink with
  | none => exact ⟨none, s, rfl, Or.inl rfl⟩
  | some sink =>
    simp only [mirrorProject, run_bind, run_attempt, run_ofExcept]
    cases sink.createCard card with
    | error e => exact ⟨none, s, rfl, Or.inl rfl⟩
    | ok page =>
      cases page with
      | none => exact ⟨none, s, rfl, Or.inl rfl⟩
      | some id =>
        by_cases hid : id = ""
        · simp only [hid, if_true]
          exact ⟨some "", s, rfl, Or.inl rfl⟩
        · simp only [hid, if_false]
          exact ⟨some id, _, rfl, Or.inr ⟨id, rfl⟩⟩

/-- What a proposal that went through has computed and written. -/
structure Proposed (solver : GreedySolver) (intent : AddProjectIntent) (actor : Option PersonRecord)
    (people : List Person) (template : ProjectTemplate) (today : Date)
    (existing : List DayAllocation) (overrides : List DayOverride) (s : Store)
    (result : AddProjectResult) (s' : Store) : Prop where
  project_id : result.project.id = s.nextId
  version_id : result.planVersionId = s.nextId + 1 + template.tasks.length
  recordable : s.Recordable (actor.map PersonRecord.id) s.nextId result.tasks result.plan.assignments
  planned : ∃ deps, instantiate template s.nextId (List.range' (s.nextId + 1) template.tasks.length) =
      .ok (result.tasks, deps) ∧
    solver.plan (projectRequest people result.tasks deps today overrides existing intent.deadline) =
      .ok result.plan
  recorded : ∃ title row, row.status = .planning ∧
    s' = ((s.drawn 1).drawn template.tasks.length).recorded title (actor.map PersonRecord.id)
      s.nextId row result.tasks result.plan

/-- A proposal that fails leaves at most a project without tasks. -/
def Abandoned (s s' : Store) : Prop :=
  ∃ n, s' = s.drawn n ∨
    ∃ row, s.nextId < (s.drawn n).nextId ∧ s.nextId ∉ s.projects.keys ∧ s' = (s.drawn n).putProject s.nextId row

theorem Abandoned.refl (s : Store) : Abandoned s s := ⟨0, Or.inl rfl⟩

theorem modifyProject_recorded (s : Store) (title : String) (actorId : Option UUID) (pid : UUID)
    (row : ProjectRow) (tasks : List Task) (plan : PlanResult) (f : ProjectRow → ProjectRow) :
    (s.recorded title actorId pid row tasks plan).modifyProject pid f =
      s.recorded title actorId pid (f row) tasks plan := by
  simp only [Store.recorded, Store.modifyProject, Store.putProject, Store.putTasks, Store.putVersion,
    Store.putAudit, OrdDict.modify_insert_self]

theorem solveProject_ok {solver : GreedySolver} {req : PlanRequest} {plan : PlanResult}
    (h : solveProject solver req = .ok plan) : solver.plan req = .ok plan := by
  unfold solveProject at h
  split at h
  · rename_i p hp
    rw [hp, Except.ok.inj h]
  all_goals cases h

/-- The rows are written once everything is checked; what fails before has drawn ids at most. -/
theorem addProject_run_cases (solver : GreedySolver) (intent : AddProjectIntent) (actor : Option PersonRecord)
    (people : List Person) (template : ProjectTemplate) (today : Date) (existing : List DayAllocation)
    (overrides : List DayOverride) (sink : Option ProjectSink) (s : Store) :
    ((¬ ∃ title tasks deps plan earliestEnd, validProject intent template today = .ok title ∧
        instantiate template s.nextId (List.range' (s.nextId + 1) template.tasks.length) = .ok (tasks, deps) ∧
        solveProject solver (projectRequest people tasks deps today overrides existing intent.deadline) = .ok plan ∧
        earliestEndOf solver (projectRequest people tasks deps today overrides existing intent.deadline) today =
          .ok earliestEnd) ∧
      ∃ n e, (addProject solver intent actor people template today existing overrides sink).run s =
        (.error e, s.drawn n)) ∨
    ∃ title tasks deps plan earliestEnd, (validProject intent template today = .ok title ∧
        instantiate template s.nextId (List.range' (s.nextId + 1) template.tasks.length) = .ok (tasks, deps) ∧
        solveProject solver (projectRequest people tasks deps today overrides existing intent.deadline) = .ok plan ∧
        earliestEndOf solver (projectRequest people tasks deps today overrides existing intent.deadline) today =
          .ok earliestEnd) ∧
      (addProject solver intent actor people template today existing overrides sink).run s =
        (recordProject title intent (actor.map PersonRecord.id) s.nextId tasks plan >>= fun rows =>
          mirrorProject sink ⟨title, intent.templateCode, tasks.map Task.name, intent.deadline⟩ rows.1.id >>= fun page =>
            Pure.pure ⟨rows.1, rows.2.id, plan, tasks, earliestEnd, page⟩).run (s.drawn (1 + template.tasks.length)) := by
  have hdrawn : s.drawn (1 + template.tasks.length) = (s.drawn 1).drawn template.tasks.length := by
    simp only [Store.drawn, Nat.add_assoc]
  simp only [addProject, run_bind, run_ofExcept]
  cases hvalid : validProject intent template today with
  | error e =>
    refine Or.inl ⟨?_, 0, e, rfl⟩
    rintro ⟨_, _, _, _, _, h, -⟩
    cases h
  | ok title =>
    simp only [uuid4, instantiateTemplate, uuid4s, run_bind, run_call, run_ofExcept]
    cases hinst : instantiate template s.nextId (List.range' (s.nextId + 1) template.tasks.length) with
    | error e =>
      rw [show (s.drawn 1).nextId = s.nextId + 1 from rfl, hinst]
      refine Or.inl ⟨?_, _, e, congrArg _ hdrawn.symm⟩
      rintro ⟨_, _, _, _, _, -, h, -⟩
      cases h
    | ok inst =>
      obtain ⟨tasks, deps⟩ := inst
      rw [show (s.drawn 1).nextId = s.nextId + 1 from rfl, hinst]
      dsimp only
      cases hplan : solveProject solver (projectRequest people tasks deps today overrides existing intent.deadline) with
      | error e =>
        refine Or.inl ⟨?_, _, e, congrArg _ hdrawn.symm⟩
        rintro ⟨_, _, _, _, _, -, h, hsolve, -⟩
        obtain ⟨rfl, rfl⟩ := Prod.mk.inj (Except.ok.inj h)
        cases hplan.symm.trans hsolve
      | ok plan =>
        dsimp only
        cases hend : earliestEndOf solver (projectRequest people tasks deps today overrides existing intent.deadline)
            today with
        | error e =>
          refine Or.inl ⟨?_, _, e, congrArg _ hdrawn.symm⟩
          rintro ⟨_, _, _, _, _, -, h, -, hearly⟩
          obtain ⟨rfl, rfl⟩ := Prod.mk.inj (Except.ok.inj h)
          cases hend.symm.trans hearly
        | ok earliestEnd =>
          refine Or.inr ⟨title, tasks, deps, plan, earliestEnd, ⟨rfl, rfl, hplan, hend⟩, ?_⟩
          rw [hdrawn]

theorem addProject_cases {solver : GreedySolver} {intent : AddProjectIntent}
    {actor : Option PersonRecord} {people : List Person} {template : ProjectTemplate} {today : Date}
    {existing : List DayAllocation} {overrides : List DayOverride} {sink : Option ProjectSink}
    {s s' : Store} {r : Except PlannerError AddProjectResult}
    (h : (addProject solver intent actor people template today existing overrides sink).run s = (r, s')) :
    (∃ e, r = .error e ∧ Abandoned s s') ∨
    ∃ result, r = .ok result ∧
      Proposed solver intent actor people template today existing overrides s result s' := by
  rcases addProject_run_cases solver intent actor people template today existing overrides sink s with
    ⟨-, n, e, hrun⟩ | ⟨title, tasks, deps, plan, earliestEnd, ⟨-, hinst, hplan, -⟩, hrun⟩
  · obtain ⟨rfl, rfl⟩ := Prod.mk.inj (h.symm.trans hrun)
    exact Or.inl ⟨e, rfl, n, Or.inl rfl⟩
  rw [hrun, run_bind] at h
  have hdrawn : s.drawn (1 + template.tasks.length) = (s.drawn 1).drawn template.tasks.length := by
    simp only [Store.drawn, Nat.add_assoc]
  have hlt : s.nextId < (s.drawn (1 + template.tasks.length)).nextId := by
    simp only [Store.drawn]
    lia
  rcases recordProject_cases title intent (actor.map PersonRecord.id) s.nextId tasks plan
      (s.drawn (1 + template.tasks.length)) with
    ⟨-, s₁, hrecord, hs₁⟩ | ⟨hrec, project, pv, row, hrecord, hid, hpv, hrow⟩ <;> rw [hrecord] at h
  · obtain ⟨rfl, rfl⟩ := Prod.mk.inj h
    refine Or.inl ⟨_, rfl, 1 + template.tasks.length, ?_⟩
    rcases hs₁ with rfl | ⟨row, hnew, rfl⟩
    · exact Or.inl rfl
    · exact Or.inr ⟨row, hlt, hnew, rfl⟩
  · obtain ⟨page, s₂, hmirror, hs₂⟩ := mirrorProject_run sink
      ⟨title, intent.templateCode, tasks.map Task.name, intent.deadline⟩ project.id
      ((s.drawn (1 + template.tasks.length)).recorded title (actor.map PersonRecord.id) s.nextId row tasks plan)
    dsimp only at h
    rw [run_bind, hmirror] at h
    obtain ⟨rfl, rfl⟩ := Prod.mk.inj h
    refine Or.inr ⟨_, rfl, hid, hpv.trans (Nat.add_assoc _ _ _).symm, ⟨hrec.knows, hrec.project_new, hrec.tasks_nodup,
      hrec.tasks_new, hrec.rows_new⟩, ⟨deps, hinst, solveProject_ok hplan⟩, ?_⟩
    rw [hdrawn] at hs₂
    rcases hs₂ with hs₂ | ⟨id, hs₂⟩
    · exact ⟨title, row, hrow, hs₂⟩
    · refine ⟨title, { row with notionPageId := some id }, hrow, ?_⟩
      rw [hs₂, hid, modifyProject_recorded]

theorem addProject_succeeds {solver : GreedySolver} {intent : AddProjectIntent}
    {people : List Person} {template : ProjectTemplate} {today : Date}
    {existing : List DayAllocation} {overrides : List DayOverride} {s : Store} {title : String}
    {tasks : List Task} {deps : List Dependency} {plan : PlanResult} {earliestEnd : Option Date}
    (actor : Option PersonRecord) (sink : Option ProjectSink)
    (hv : validProject intent template today = .ok title)
    (hinst : instantiate template s.nextId (List.range' (s.nextId + 1) template.tasks.length) =
      .ok (tasks, deps))
    (hplan : solver.plan (projectRequest people tasks deps today overrides existing intent.deadline) =
      .ok plan)
    (hend : earliestEndOf solver
      (projectRequest people tasks deps today overrides existing intent.deadline) today = .ok earliestEnd)
    (hrec : s.Recordable (actor.map PersonRecord.id) s.nextId tasks plan.assignments) :
    ∃ result s', (addProject solver intent actor people template today existing overrides sink).run s =
      (.ok result, s') ∧ result.plan = plan ∧ result.tasks = tasks := by
  have hsolve : solveProject solver
      (projectRequest people tasks deps today overrides existing intent.deadline) = .ok plan := by
    simp only [solveProject, hplan]
  rcases addProject_run_cases solver intent actor people template today existing overrides sink s with
    ⟨hno, -⟩ | ⟨title', tasks', deps', plan', _, ⟨-, hinst', hsolve', -⟩, hrun⟩
  · exact absurd ⟨title, tasks, deps, plan, earliestEnd, hv, hinst, hsolve, hend⟩ hno
  obtain ⟨rfl, rfl⟩ := Prod.mk.inj (Except.ok.inj (hinst.symm.trans hinst'))
  obtain rfl := Except.ok.inj (hsolve.symm.trans hsolve')
  rw [hrun, run_bind]
  rcases recordProject_cases title' intent (actor.map PersonRecord.id) s.nextId tasks plan
      (s.drawn (1 + template.tasks.length)) with ⟨hn, -⟩ | ⟨-, project, pv, row, hrecord, -, -, -⟩
  · exact absurd ⟨hrec.knows, hrec.project_new, hrec.tasks_nodup, hrec.tasks_new, hrec.rows_new⟩ hn
  · obtain ⟨page, s₂, hmirror, -⟩ := mirrorProject_run sink
      ⟨title', intent.templateCode, tasks.map Task.name, intent.deadline⟩ project.id
      ((s.drawn (1 + template.tasks.length)).recorded title' (actor.map PersonRecord.id) s.nextId row tasks plan)
    rw [hrecord]
    dsimp only
    rw [run_bind, hmirror]
    exact ⟨_, s₂, rfl, rfl, rfl⟩

def Store.committedLoad (s : Store) : List DayAllocation :=
  s.committedPayloads.flatMap deserializeAllocations

/-- The chat path proposes from the active people and the committed load, and
leaves the stored overrides out. -/
theorem buildAddProjectReply_cases {solver : GreedySolver} {intent : AddProjectIntent}
    {actor : Option PersonRecord} {today : Date} {sink : Option ProjectSink} {s s' : Store}
    {r : Except PlannerError (Except String AddProjectResult)}
    (h : (buildAddProjectReply solver intent actor today sink).run s = (r, s')) :
    ((∀ result, r ≠ .ok (.ok result)) ∧ Abandoned s s') ∨
    ∃ result template, r = .ok (.ok result) ∧ s.projectTemplate intent.templateCode = some template ∧
      s.solverPeople ≠ [] ∧
      Proposed solver intent actor s.solverPeople template today s.committedLoad [] s result s' := by
  simp only [buildAddProjectReply, run_bind, Repo.getProjectTemplate, Repo.getSolverPeople,
    Repo.listCommittedPlans, run_read] at h
  cases ht : s.projectTemplate intent.templateCode with
  | none =>
    simp only [ht, run_pure, Prod.mk.injEq] at h
    obtain ⟨rfl, rfl⟩ := h
    exact Or.inl ⟨by simp, Abandoned.refl _⟩
  | some template =>
    simp only [ht] at h
    by_cases hp : s.solverPeople.isEmpty = true
    · simp only [run_bind, run_read, hp, if_true, run_pure, Prod.mk.injEq] at h
      obtain ⟨rfl, rfl⟩ := h
      exact Or.inl ⟨by simp, Abandoned.refl _⟩
    · simp only [run_bind, run_read, hp, Bool.false_eq_true, if_false, run_attempt] at h
      rcases addProject_cases (Prod.mk.eta (p := (addProject solver intent actor s.solverPeople
          template today s.committedLoad [] sink).run s)).symm with ⟨e, he, hs⟩ | ⟨result, hr, hs⟩
      · change _ = (r, s') at h
        rw [show s.committedPayloads.flatMap deserializeAllocations = s.committedLoad from rfl, he] at h
        refine Or.inl ?_
        cases e <;> simp only [run_pure, run_raise, Prod.mk.injEq] at h <;>
          exact ⟨by simp [← h.1], h.2 ▸ hs⟩
      · rw [show s.committedPayloads.flatMap deserializeAllocations = s.committedLoad from rfl, hr] at h
        simp only [run_pure, Prod.mk.injEq] at h
        exact Or.inr ⟨result, template, h.1.symm, rfl, by simpa using hp, h.2 ▸ hs⟩

end Planner
