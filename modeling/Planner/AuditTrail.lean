import Planner.ConfirmFaults
import Planner.OperationRuns
import Planner.ProposalTables
import Planner.Standing
import Planner.ToolCaptures

/-! Whether what an operation changes is named in the audit log. Every use case
writes its entry itself; the merge of two captures and the retired proposal have none. -/

namespace Planner

open Program

/-- What the log is to keep track of. -/
inductive Entity
  | version (v : UUID)
  | project (p : UUID)
  | task (t : UUID)
  | assignment (t personId : UUID)
  | dayOverride (personId : UUID) (day : Date)

/-- The status of a version or of a project, or the row of the others, is another one. -/
def Entity.Changed (s s' : Store) : Entity → Prop
  | .version v => (s'.standing v).map Prod.snd ≠ (s.standing v).map Prod.snd
  | .project p => s'.projectStatus p ≠ s.projectStatus p
  | .task t => s'.tasks.get? t ≠ s.tasks.get? t
  | .assignment t q => s'.assignments.get? (t, q) ≠ s.assignments.get? (t, q)
  | .dayOverride q day => s'.dayOverrides.get? (q, day) ≠ s.dayOverrides.get? (q, day)

def AuditRow.Names (a : AuditRow) (entityType : String) (id : UUID) : Prop :=
  a.entityType = entityType ∧ a.entityId = some id

/-- The entry names the entity, or the aggregate it belongs to: a project with its
versions and tasks, a task with its assignments, a person with the days off. -/
def Entity.NamedBy (s : Store) (a : AuditRow) : Entity → Prop
  | .version v => a.Names "plan_version" v ∨ ∃ pv, s.planVersions.get? v = some pv ∧ a.Names "project" pv.projectId
  | .project p => a.Names "project" p ∨
      (∃ v pv, s.planVersions.get? v = some pv ∧ pv.projectId = p ∧ a.Names "plan_version" v) ∨
      ∃ t row, s.tasks.get? t = some row ∧ row.projectId = p ∧ a.Names "task" t
  | .task t => a.Names "task" t ∨ ∃ row, s.tasks.get? t = some row ∧ a.Names "project" row.projectId
  | .assignment t _ => a.Names "task" t ∨ ∃ row, s.tasks.get? t = some row ∧ a.Names "project" row.projectId
  | .dayOverride q _ => a.Names "day_override" q

/-- Every change is named by an entry appended since. -/
def Audited (s s' : Store) : Prop :=
  ∀ e : Entity, e.Changed s s' → ∃ a ∈ s'.audit.drop s.audit.length, e.NamedBy s' a

/-- What the front ends of chat and web do to the tables. -/
inductive Operation
  | addProject (solver : GreedySolver) (intent : AddProjectIntent) (actor : Option PersonRecord) (people : List Person)
      (template : ProjectTemplate) (today : Date) (existing : List DayAllocation) (overrides : List DayOverride)
      (sink : Option ProjectSink)
  | confirm (sink : Option TaskSink) (pvId : UUID) (actor : Option PersonRecord)
  | supersede (oldPvId : UUID)
  | capture (U : CharTables) (sink : Option TaskSink) (intent : CaptureTaskIntent) (actor : Option PersonRecord)
  | captureTool (ctx : ToolContext) (args : Args) (box : ToolBox)
  | assign (U : CharTables) (taskRef personName : String) (actorId : Option UUID)
  | markDone (taskId : UUID) (actorId : Option UUID) (isAdmin : Bool) (status : String)
  | setVacation (intent : VacationIntent) (actorId : Option UUID) (isAdmin : Bool)
  | reassign (isAdmin : Bool) (taskId personId : FormField UUID) (actorId : Option UUID)
  | editTask (isAdmin : Bool) (taskId : UUID) (start end_ : FormField Date) (actorId : Option UUID)

namespace Operation

def program : Operation → UseCase Unit
  | .addProject solver intent actor people template today existing overrides sink =>
    Planner.addProject solver intent actor people template today existing overrides sink >>= fun _ => Pure.pure ()
  | .confirm sink pvId actor => confirmPlan sink pvId actor >>= fun _ => Pure.pure ()
  | .supersede oldPvId => retirePlan oldPvId
  | .capture U sink intent actor => captureTask U sink intent actor >>= fun _ => Pure.pure ()
  | .captureTool ctx args box => Planner.captureTool ctx args box >>= fun outcome => .ofExcept (outcome.said.map fun _ => ())
  | .assign U taskRef personName actorId => buildAssignReply U taskRef personName actorId >>= fun _ => Pure.pure ()
  | .markDone taskId actorId isAdmin status => markTaskDone taskId actorId isAdmin status
  | .setVacation intent actorId isAdmin => Planner.setVacation intent actorId isAdmin >>= fun _ => Pure.pure ()
  | .reassign isAdmin taskId personId actorId => Planner.reassign isAdmin taskId personId actorId
  | .editTask isAdmin taskId start end_ actorId => Planner.editTask isAdmin taskId start end_ actorId

def actorId : Operation → Option UUID
  | .addProject _ _ actor _ _ _ _ _ _ => actor.map PersonRecord.id
  | .confirm _ _ actor => actor.map PersonRecord.id
  | .supersede _ => none
  | .capture _ _ _ actor => actor.map PersonRecord.id
  | .captureTool ctx _ _ => ctx.actor.map PersonRecord.id
  | .assign _ _ _ actorId => actorId
  | .markDone _ actorId _ _ => actorId
  | .setVacation _ actorId _ => actorId
  | .reassign _ _ _ actorId => actorId
  | .editTask _ _ _ _ actorId => actorId

end Operation

/-- The entry a call is merged into, and the names it adds. -/
def mergeTarget (ctx : ToolContext) (args : Args) (box : ToolBox) : Option (CaptureEntry × List String) :=
  match args.strings "assignees", args.stripped "project" "", args.optDate "deadline", args.required "title" with
  | .ok assignees, .ok project, .ok deadline, .ok title =>
    if assignees = [] ∨ project = "" ∨ deadline = none then none
    else (box.capturesByKey.get? (titleKey ctx.tables title.shown)).map fun entry => (entry, assignees)
  | _, _, _, _ => none

/-- No proposal is retired, and a merge adds nobody. -/
def Operation.Logs (s : Store) : Operation → Prop
  | .supersede oldPvId => ¬ s.IsProposed oldPvId
  | .captureTool ctx args box => ∀ entry names, mergeTarget ctx args box = some (entry, names) →
      ∀ name ∈ names, ∀ person, s.personByName name = some person →
        person.name ∈ entry.assignees ∨ s.assignments.get? (entry.taskId, person.id) = some entry.duration
  | _ => True

section Frames

variable {s s' : Store} {a : AuditRow}

theorem Audited.refl (s : Store) : Audited s s := fun e he => by
  cases e <;> exact absurd rfl he

theorem audited_of_entry (haudit : s'.audit = s.audit ++ [a]) (h : ∀ e : Entity, e.Changed s s' → e.NamedBy s' a) :
    Audited s s' := by
  intro e he
  refine ⟨a, ?_, h e he⟩
  rw [haudit, List.drop_left]
  exact List.mem_singleton_self a

theorem not_audited_of_change (haudit : s'.audit = s.audit) {e : Entity} (he : e.Changed s s') : ¬ Audited s s' := by
  intro h
  obtain ⟨b, hb, -⟩ := h e he
  rw [haudit, List.drop_length] at hb
  cases hb

/-- Only rows of the task change, and perhaps the status of the project it is in. -/
structure TouchesTask (t : UUID) (s s' : Store) : Prop where
  versions : ∀ v, s'.standing v = s.standing v
  projects : ∀ p, s'.projectStatus p ≠ s.projectStatus p → ∃ row, s'.tasks.get? t = some row ∧ row.projectId = p
  tasks : ∀ u, u ≠ t → s'.tasks.get? u = s.tasks.get? u
  assignments : ∀ u q, u ≠ t → s'.assignments.get? (u, q) = s.assignments.get? (u, q)
  dayOverrides : s'.dayOverrides = s.dayOverrides

theorem TouchesTask.audited {t : UUID} (h : TouchesTask t s s') (haudit : s'.audit = s.audit ++ [a])
    (ha : a.Names "task" t) : Audited s s' := by
  refine audited_of_entry haudit fun e he => ?_
  cases e with
  | version v => exact absurd (congrArg (Option.map Prod.snd) (h.versions v)) he
  | project p =>
    obtain ⟨row, hrow, hp⟩ := h.projects p he
    exact Or.inr (Or.inr ⟨t, row, hrow, hp, ha⟩)
  | task u =>
    by_cases hu : u = t
    · exact Or.inl (hu ▸ ha)
    · exact absurd (h.tasks u hu) he
  | assignment u q =>
    by_cases hu : u = t
    · exact Or.inl (hu ▸ ha)
    · exact absurd (h.assignments u q hu) he
  | dayOverride q day => exact absurd (by rw [h.dayOverrides]) he

theorem standing_editInPlan (taskId : UUID) (f : Assignment → Assignment) (v : UUID) :
    (s.editInPlan taskId f).standing v = s.standing v := by
  unfold Store.editInPlan
  split
  · rfl
  · exact ((Aside.indifferent s).editPayload _ (·.editTask taskId f) (Aside.refl s)).standing v

/-- A filed capture touches its task, and the project only if it was made for it. -/
theorem touchesTask_filed (hs : s.TaskKeys) (U : CharTables) (intent : CaptureTaskIntent) (actorId : Option UUID) :
    TouchesTask (s.housed U intent.projectName actorId).nextId s
      ((s.housed U intent.projectName actorId).filed (s.homeOf U intent.projectName) intent actorId) := by
  have hkeys := hs.housed U intent.projectName actorId
  have hhoused : (s.housed U intent.projectName actorId).planVersions = s.planVersions ∧
      (s.housed U intent.projectName actorId).tasks = s.tasks ∧
      (s.housed U intent.projectName actorId).assignments = s.assignments ∧
      (s.housed U intent.projectName actorId).dayOverrides = s.dayOverrides := by
    unfold Store.housed
    split <;> exact ⟨rfl, rfl, rfl, rfl⟩
  have hprojects : ∀ p, p ≠ (s.homeOf U intent.projectName).1 →
      (s.housed U intent.projectName actorId).projectStatus p = s.projectStatus p := by
    intro p hp
    unfold Store.homeOf at hp
    unfold Store.housed
    split at hp
    · rfl
    · simp only [Store.projectStatus, Store.putProject, OrdDict.get?_insert_of_ne _ _ hp]
      rfl
  obtain ⟨hversions, htasks, hassignments, hdays⟩ := hhoused
  generalize s.housed U intent.projectName actorId = h at *
  refine ⟨fun v => ?_, fun p hp => ?_, fun u hu => ?_, fun u q hu => ?_, ?_⟩
  · rw [Store.standing, Store.standing, ← hversions]
    rfl
  · refine ⟨intent.row (s.homeOf U intent.projectName).1, OrdDict.get?_insert_self _ _ _, ?_⟩
    by_contra hne
    exact hp (hprojects p (fun he => hne he.symm))
  · rw [← htasks]
    exact OrdDict.get?_insert_of_ne _ _ hu
  · rw [← hassignments]
    refine OrdDict.get?_insertAll_of_not_mem _ _ fun hmem => ?_
    obtain ⟨r, hr, heq⟩ := List.mem_map.mp hmem
    obtain ⟨name, -, hfound⟩ := List.mem_filterMap.mp hr
    obtain ⟨person, -, rfl⟩ := Option.map_eq_some_iff.mp hfound
    exact hu (Prod.mk.inj heq).1.symm
  · exact hdays

theorem audit_filed (U : CharTables) (home : UUID × String) (intent : CaptureTaskIntent) (actorId : Option UUID) :
    ((s.housed U intent.projectName actorId).filed home intent actorId).audit =
      s.audit ++ [(s.housed U intent.projectName actorId).captureAudit intent home.2 actorId] := by
  have hhoused : (s.housed U intent.projectName actorId).audit = s.audit := by
    unfold Store.housed
    split <;> rfl
  rw [← hhoused]
  rfl

theorem captureTask_audited (hs : s.TaskKeys) {U : CharTables} {sink : Option TaskSink} {intent : CaptureTaskIntent}
    {actor : Option PersonRecord} (hknown : s.knows (actor.map PersonRecord.id)) :
    Audited s ((captureTask U sink intent actor).run s).2 := by
  rw [captureTask_run hs hknown]
  split
  · exact Audited.refl s
  · exact (touchesTask_filed hs U intent _).audited (audit_filed U _ intent _) ⟨rfl, rfl⟩

end Frames

section UseCases

variable {s s' : Store} {actorId : Option UUID}

theorem run_bind_unit_ok {α : Type} {p : UseCase α} (h : (p >>= fun _ => Pure.pure ()).run s = (.ok (), s')) :
    ∃ a, p.run s = (.ok a, s') := by
  obtain ⟨a, s₁, hp, hpure⟩ := run_bind_eq_ok h
  obtain rfl := (Prod.mk.inj hpure).2
  exact ⟨a, hp⟩

theorem addProject_audited {solver : GreedySolver} {intent : AddProjectIntent} {actor : Option PersonRecord}
    {people : List Person} {template : ProjectTemplate} {today : Date} {existing : List DayAllocation}
    {overrides : List DayOverride} {result : AddProjectResult}
    (h : Proposed solver intent actor people template today existing overrides s result s') : Audited s s' := by
  have haudit : ∃ title, s'.audit = s.audit ++ [⟨actor.map PersonRecord.id, "add_project", "project",
      some result.project.id, some [("title", .text title)]⟩] := by
    obtain ⟨title, row, -, rfl⟩ := h.recorded
    rw [h.project_id]
    exact ⟨title, rfl⟩
  obtain ⟨title, haudit⟩ := haudit
  have hrow : ∀ t ∈ result.tasks.map Task.id, ∃ row, s'.tasks.get? t = some row ∧ row.projectId = result.project.id := by
    intro t ht
    obtain ⟨task, htask, rfl⟩ := List.mem_map.mp ht
    have hnodup : ((result.tasks.map fun t => (t.id, taskRow result.project.id
        (scheduleOf result.plan.assignments) t)).map Prod.fst).Nodup := by
      rw [List.map_map]
      exact h.recordable.tasks_nodup
    refine ⟨taskRow result.project.id (scheduleOf result.plan.assignments) task, ?_, rfl⟩
    rw [h.tasks]
    exact OrdDict.get?_insertAll_of_mem _ _ hnodup
      (List.mem_map_of_mem (f := fun t => (t.id, taskRow result.project.id (scheduleOf result.plan.assignments) t)) htask)
  refine audited_of_entry haudit fun e he => ?_
  cases e with
  | version v =>
    by_cases hv : v = result.planVersionId
    · refine Or.inr ⟨⟨result.project.id, .proposed, serializePlan result.plan, actor.map PersonRecord.id⟩, ?_, rfl, rfl⟩
      rw [hv, h.planVersions, OrdDict.get?_insert_self]
    · refine absurd ?_ he
      rw [Store.standing, h.planVersions, OrdDict.get?_insert_of_ne _ _ hv]
      rfl
  | project p =>
    obtain ⟨row, -, hprojects⟩ := h.projects
    by_cases hp : p = result.project.id
    · exact Or.inl ⟨rfl, by rw [hp]⟩
    · refine absurd ?_ he
      rw [Store.projectStatus, hprojects, OrdDict.get?_insert_of_ne _ _ hp]
      rfl
  | task t =>
    by_cases ht : t ∈ result.tasks.map Task.id
    · obtain ⟨row, hget, hp⟩ := hrow t ht
      exact Or.inr ⟨row, hget, rfl, by rw [hp]⟩
    · refine absurd ?_ he
      rw [h.tasks, OrdDict.get?_insertAll_of_not_mem]
      simpa [Function.comp_def] using ht
  | assignment t q =>
    by_cases ht : t ∈ result.tasks.map Task.id
    · obtain ⟨row, hget, hp⟩ := hrow t ht
      exact Or.inr ⟨row, hget, rfl, by rw [hp]⟩
    · refine absurd ?_ he
      rw [h.assignments, OrdDict.get?_insertAll_of_not_mem]
      intro hmem
      obtain ⟨r, hr, heq⟩ := List.mem_map.mp hmem
      have htask := assignmentRows_task hr
      rw [heq] at htask
      exact ht htask
  | dayOverride q day => exact absurd (by rw [h.dayOverrides]) he

theorem confirmPlan_audited {sink : Option TaskSink} {v : UUID} {actor : Option PersonRecord}
    {result : ConfirmResult} (h : (confirmPlan sink v actor).run s = (.ok result, s')) : Audited s s' := by
  have hends := @Ends.run _ _ _ (fun _ => False) (confirmPlan sink v actor) s
  rw [h] at hends
  rcases confirmPlan_ends hends with ⟨-, e, he⟩ | ⟨pv, hv, -, ⟨-, e, he⟩ | ⟨-, e, he⟩ | ⟨hs, -⟩⟩
  · cases he
  · cases he
  · cases he
  dsimp only at hs
  have haudit : s'.audit = s.audit ++ [⟨actor.map PersonRecord.id, "confirm_plan", "plan_version", some v, none⟩] := by
    rw [hs]
    rfl
  have hversions : s'.planVersions = s.planVersions.modify v ({ · with status := .committed }) := by
    rw [hs]
    rfl
  have hprojects : s'.projects = s.projects.modify pv.projectId ({ · with status := .committed }) := by
    rw [hs]
    rfl
  refine audited_of_entry haudit fun e he => ?_
  cases e with
  | version w =>
    by_cases hw : w = v
    · exact Or.inl ⟨rfl, by rw [hw]⟩
    · refine absurd ?_ he
      rw [Store.standing, hversions, OrdDict.get?_modify_of_ne _ _ hw]
      rfl
  | project p =>
    by_cases hp : p = pv.projectId
    · refine Or.inr (Or.inl ⟨v, { pv with status := .committed }, ?_, hp.symm, rfl, rfl⟩)
      rw [hversions, OrdDict.get?_modify_self, hv]
      rfl
    · refine absurd ?_ he
      rw [Store.projectStatus, hprojects, OrdDict.get?_modify_of_ne _ _ hp]
      rfl
  | task t => exact absurd (by rw [hs]; rfl) he
  | assignment t q => exact absurd (by rw [hs]; rfl) he
  | dayOverride q day => exact absurd (by rw [hs]; rfl) he

/-- The retired version is named nowhere. -/
theorem supersede_audited_iff {v : UUID} : Audited s ((retirePlan v).run s).2 ↔ ¬ s.IsProposed v := by
  by_cases hp : s.IsProposed v
  · obtain ⟨pv, hv, hst⟩ := hp
    have hrun : (retirePlan v).run s = (.ok (), (s.modifyVersion v ({ · with status := .superseded })).modifyProject
        pv.projectId ({ · with status := .cancelled })) := by
      simp only [retirePlan, Repo.getPlanVersion, Repo.transitionPlanStatus, Repo.setProjectStatus, run_bind, run_read,
        run_call, hv, Option.map_some, Option.any_some, hst, decide_true, if_true]
    rw [hrun]
    refine iff_of_false (not_audited_of_change (e := .version v) rfl ?_) (not_not_intro ⟨pv, hv, hst⟩)
    simp only [Entity.Changed, Store.standing, Store.modifyVersion, Store.modifyProject, OrdDict.get?_modify_self, hv,
      Option.map_some, hst]
    decide
  · rw [retirePlan_run_of_not_proposed hp]
    exact iff_of_true (Audited.refl s) hp

theorem setVacation_audited (hknown : s.knows actorId) (intent : VacationIntent) (isAdmin : Bool) :
    Audited s ((setVacation intent actorId isAdmin).run s).2 := by
  cases isAdmin with
  | false => exact Audited.refl s
  | true =>
    rcases setVacation_run hknown intent with ⟨-, e, hrun⟩ | ⟨person, -, -, hrun⟩
    · rw [hrun]
      exact Audited.refl s
    · rw [hrun]
      have hdays := Store.daysOff_eq person.id intent.capacityH (intent.dayTo - intent.dayFrom + 1) intent.dayFrom s
      have hother := fun q hq d => @Store.get?_daysOff person.id q hq intent.capacityH
        (intent.dayTo - intent.dayFrom + 1) intent.dayFrom d s
      generalize Store.daysOff person.id intent.capacityH (intent.dayTo - intent.dayFrom + 1) intent.dayFrom s = t at *
      have haudit : (t.putAudit (Store.vacationAudit intent person.id actorId)).audit =
          s.audit ++ [Store.vacationAudit intent person.id actorId] := by
        rw [hdays]
        rfl
      refine audited_of_entry haudit fun e he => ?_
      cases e with
      | version v => exact absurd (by rw [hdays]; rfl) he
      | project p => exact absurd (by rw [hdays]; rfl) he
      | task u => exact absurd (by rw [hdays]; rfl) he
      | assignment u q => exact absurd (by rw [hdays]; rfl) he
      | dayOverride q day =>
        by_cases hq : q = person.id
        · exact ⟨rfl, by rw [hq]; rfl⟩
        · exact absurd (hother q hq day) he

theorem touchesTask_reassigned (taskId personId : UUID) : TouchesTask taskId s (s.reassigned taskId personId) := by
  refine ⟨fun v => standing_editInPlan _ _ v, fun p hp => absurd ?_ hp, fun u _ => ?_, fun u q hu => ?_, ?_⟩
  · rw [Store.projectStatus, Store.reassigned, Store.projects_editInPlan]
    rfl
  · rw [Store.reassigned, Store.tasks_editInPlan]
    rfl
  · have hne : (u, q) ≠ (taskId, personId) := fun he => hu (Prod.mk.inj he).1
    rw [Store.reassigned, Store.assignments_editInPlan, Store.setAssignee, OrdDict.get?_insert_of_ne _ _ hne,
      OrdDict.get?_filter]
    cases s.assignments.get? (u, q) <;> simp [hu]
  · rw [Store.reassigned, Store.dayOverrides_editInPlan]
    rfl

theorem touchesTask_rescheduled (taskId : UUID) (start end_ : Option Date) :
    TouchesTask taskId s (s.rescheduled taskId start end_) := by
  refine ⟨fun v => standing_editInPlan _ _ v, fun p hp => absurd ?_ hp, fun u hu => ?_, fun u q _ => ?_, ?_⟩
  · rw [Store.projectStatus, Store.rescheduled, Store.projects_editInPlan]
    rfl
  · rw [Store.rescheduled, Store.tasks_editInPlan]
    exact OrdDict.get?_modify_of_ne _ _ hu
  · rw [Store.rescheduled, Store.assignments_editInPlan]
    rfl
  · rw [Store.rescheduled, Store.dayOverrides_editInPlan]
    rfl

theorem touchesTask_marked (taskId : UUID) (status : TaskStatus) :
    TouchesTask taskId s (s.modifyTask taskId ({ · with status := status })) :=
  ⟨fun _ => rfl, fun _ hp => absurd rfl hp, fun _ hu => OrdDict.get?_modify_of_ne _ _ hu, fun _ _ _ => rfl, rfl⟩

theorem TouchesTask.logged {t : Store} {taskId : UUID} (h : TouchesTask taskId s t) (haudit : t.audit = s.audit)
    (action : String) (payload : Option (List (String × AuditValue))) :
    Audited s (t.putAudit ⟨actorId, action, "task", some taskId, payload⟩) := by
  have hput : TouchesTask taskId s (t.putAudit ⟨actorId, action, "task", some taskId, payload⟩) :=
    ⟨h.versions, h.projects, h.tasks, h.assignments, h.dayOverrides⟩
  have hentry : (t.putAudit ⟨actorId, action, "task", some taskId, payload⟩).audit =
      s.audit ++ [⟨actorId, action, "task", some taskId, payload⟩] := by
    rw [← haudit]
    rfl
  exact hput.audited hentry ⟨rfl, rfl⟩

theorem audit_reassigned (taskId personId : UUID) : (s.reassigned taskId personId).audit = s.audit := by
  rw [Store.reassigned, Store.audit_editInPlan]
  rfl

theorem buildAssignReply_audited (hknown : s.knows actorId) (U : CharTables) (taskRef personName : String) :
    Audited s ((buildAssignReply U taskRef personName actorId).run s).2 := by
  rcases buildAssignReply_run (U := U) hknown taskRef personName with
    ⟨-, text, hrun⟩ | ⟨person, task, text, -, -, -, hrun⟩
  · rw [hrun]
    exact Audited.refl s
  · rw [hrun]
    exact (touchesTask_reassigned task.1 person.id).logged (audit_reassigned _ _) _ _

theorem markTaskDone_audited (hknown : s.knows actorId) (taskId : UUID) (isAdmin : Bool) (status : String) :
    Audited s ((markTaskDone taskId actorId isAdmin status).run s).2 := by
  unfold markTaskDone
  split
  · exact Audited.refl s
  · cases taskStatusOf status with
    | none => exact Audited.refl s
    | some st =>
      have hknows : (s.modifyTask taskId ({ · with status := st })).knows actorId := hknown
      simp only [run_bind, Repo.setTaskStatus, run_call, addAudit_known hknows]
      exact (touchesTask_marked taskId st).logged rfl _ _

theorem reassign_audited (hknown : s.knows actorId) (isAdmin : Bool) (taskId personId : FormField UUID) :
    Audited s ((reassign isAdmin taskId personId actorId).run s).2 := by
  unfold reassign
  split
  · exact Audited.refl s
  · split
    · exact Audited.refl s
    · rename_i pid tid
      have hpeople : Repo.listPeople.run s = (.ok (s.peopleByName.map fun e => e.2.record e.1), s) := run_read _ _
      rw [run_bind_of_ok hpeople]
      split
      · exact Audited.refl s
      · rename_i hfound
        have hp : pid ∈ s.people.keys := by
          by_contra hp
          refine hfound (List.all_eq_true.mpr fun p hm => decide_eq_true fun hid => ?_)
          exact hp (mem_listPeople.mp ⟨p, hm, hid⟩)
        by_cases ht : tid ∈ s.tasks.keys
        · obtain ⟨moved, hedit⟩ := editInPlan_run tid (fun a => { a with
            personId := pid, allocations := a.allocations.map ({ · with personId := pid }) }) (s.setAssignee tid pid 8)
          have hknows : (s.reassigned tid pid).knows actorId := by
            intro p hp
            rw [Store.reassigned, Store.people_editInPlan]
            exact hknown p hp
          rw [run_bind_of_ok (setTaskAssignee_run ht hp)]
          simp only [if_true]
          have hrun := (run_bind_of_ok hedit (f := fun _ => Repo.addAudit actorId "reassign_task" "task" (some tid)
            (some [("person_id", .text (toString pid))]))).trans (addAudit_known hknows _ _ _ _)
          rw [show Repo.reassignInPlan tid pid = Repo.editInPlan tid _ from rfl, hrun]
          exact (touchesTask_reassigned tid pid).logged (audit_reassigned _ _) _ _
        · have hnone : (Repo.setTaskAssignee tid pid).run s = (.ok false, s) := by
            simp only [Repo.setTaskAssignee, run_call, if_pos ht]
          rw [run_bind_of_ok hnone]
          exact Audited.refl s
    · exact Audited.refl s

theorem editTask_audited (hknown : s.knows actorId) (isAdmin : Bool) (taskId : UUID) (start end_ : FormField Date) :
    Audited s ((editTask isAdmin taskId start end_ actorId).run s).2 := by
  unfold editTask
  split
  · exact Audited.refl s
  · rw [run_bind, toDate_run]
    by_cases hstart : start = .bad
    · rw [if_pos hstart]
      exact Audited.refl s
    · rw [if_neg hstart]
      dsimp only
      rw [run_bind, toDate_run]
      by_cases hend : end_ = .bad
      · rw [if_pos hend]
        exact Audited.refl s
      · rw [if_neg hend]
        dsimp only
        obtain ⟨moved, hedit⟩ := editInPlan_run taskId (fun a => { a with
          startDate := start.value?.getD a.startDate, endDate := end_.value?.getD a.endDate })
          (s.modifyTask taskId fun t => { t with startDate := start.value?.or t.startDate, endDate := end_.value?.or t.endDate })
        have hknows : (s.rescheduled taskId start.value? end_.value?).knows actorId := by
          intro p hp
          rw [Store.rescheduled, Store.people_editInPlan]
          exact hknown p hp
        have haudit : (s.rescheduled taskId start.value? end_.value?).audit = s.audit := by
          rw [Store.rescheduled, Store.audit_editInPlan]
          rfl
        have hupdate : (Repo.updateTaskSchedule taskId start.value? end_.value?).run s = (.ok (), _) := run_call _ _
        have hrun := (run_bind_of_ok hedit (f := fun _ => Repo.addAudit actorId "edit_task" "task" (some taskId)
          (some [("start", .text ((start.value?.map Date.isoformat).getD "")),
            ("end", .text ((end_.value?.map Date.isoformat).getD ""))]))).trans (addAudit_known hknows _ _ _ _)
        rw [run_bind_of_ok hupdate]
        refine (congrArg (fun r => Audited s r.2) hrun).mpr ?_
        exact (touchesTask_rescheduled taskId start.value? end_.value?).logged haudit _ _

end UseCases

section Merge

variable {s s' : Store} {ctx : ToolContext} {args : Args} {box : ToolBox}

/-- A merge is logged iff it has nothing to add. -/
theorem merged_audited_iff (taskId : UUID) (hours : Int) (names assigned : List String) :
    Audited s (s.merged taskId hours names assigned) ↔ ∀ name ∈ names, ∀ person, s.personByName name = some person →
      person.name ∈ assigned ∨ s.assignments.get? (taskId, person.id) = some hours := by
  have hrows : ∀ r ∈ s.mergedRows taskId hours names assigned, r.2 = hours := by
    intro r hr
    obtain ⟨-, -, -, -, -, rfl⟩ := Store.mem_mergedRows.mp hr
    rfl
  constructor
  · intro haudited name hname person hfound
    by_contra hnot
    rw [not_or] at hnot
    have hrow : ((taskId, person.id), hours) ∈ s.mergedRows taskId hours names assigned :=
      Store.mem_mergedRows.mpr ⟨name, hname, person, hfound, hnot.1, rfl⟩
    have haudit : (s.merged taskId hours names assigned).audit = s.audit := rfl
    refine not_audited_of_change haudit (e := .assignment taskId person.id) (fun hsame => hnot.2 ?_) haudited
    rw [← hsame]
    exact OrdDict.get?_insertAll_of_forall _ _ (List.mem_map_of_mem hrow) fun e he _ => hrows e he
  · intro hall e he
    have hthere : ∀ k v, (k, v) ∈ s.mergedRows taskId hours names assigned → s.assignments.get? k = some v := by
      intro k v hr
      obtain ⟨name, hname, person, hfound, hnot, heq⟩ := Store.mem_mergedRows.mp hr
      obtain ⟨rfl, rfl⟩ := Prod.mk.inj heq
      exact (hall name hname person hfound).resolve_left hnot
    cases e with
    | assignment t q =>
      refine absurd ?_ he
      change (s.assignments.insertAll _).get? (t, q) = _
      cases hget : (s.assignments.insertAll (s.mergedRows taskId hours names assigned)).get? (t, q) with
      | some v => exact ((OrdDict.mem_of_get?_insertAll hget).elim (hthere _ _) id).symm
      | none =>
        refine (OrdDict.get?_eq_none_iff.mpr fun hk => ?_).symm
        exact OrdDict.get?_eq_none_iff.mp hget ((OrdDict.mem_keys_insertAll _ _).mpr (Or.inr hk))
    | version v => exact absurd rfl he
    | project p => exact absurd rfl he
    | task t => exact absurd rfl he
    | dayOverride q day => exact absurd rfl he

/-- A call of the capture tool asks for fields, captures, or is merged. -/
theorem captureTool_cases {outcome : ToolOutcome} (h : (captureTool ctx args box).run s = (.ok outcome, s')) :
    (mergeTarget ctx args box = none ∧
      (s' = s ∨ ∃ intent, s' = ((captureTask ctx.tables ctx.taskSink intent ctx.actor).run s).2)) ∨
    ∃ entry names assigned r, mergeTarget ctx args box = some (entry, names) ∧
      (mergeAssignees entry.taskId entry.duration names entry.assignees).run s = (.ok (assigned, r), s') ∧
      ∀ e, r = .error e → outcome.said = .error e := by
  obtain ⟨assignees, hassignees, h⟩ := run_bind_ofExcept_ok h
  obtain ⟨project, hproject, h⟩ := run_bind_ofExcept_ok h
  obtain ⟨deadline, hdeadline, h⟩ := run_bind_ofExcept_ok h
  by_cases hmissing : assignees = [] ∨ project = "" ∨ deadline = none
  · rw [if_pos hmissing] at h
    obtain ⟨pending, -, h⟩ := run_bind_ofExcept_ok h
    refine Or.inl ⟨?_, Or.inl (Prod.mk.inj h).2.symm⟩
    rw [mergeTarget, hassignees, hproject, hdeadline]
    cases args.required "title" with
    | ok title => exact if_pos hmissing
    | error e => rfl
  · rw [if_neg hmissing] at h
    obtain ⟨title, htitle, h⟩ := run_bind_ofExcept_ok h
    dsimp only at h
    have htarget : mergeTarget ctx args box = (box.capturesByKey.get? (titleKey ctx.tables title.shown)).map
        fun entry => (entry, assignees) := by
      simp only [mergeTarget, hassignees, hproject, hdeadline, htitle, if_neg hmissing]
    cases hentry : box.capturesByKey.get? (titleKey ctx.tables title.shown) with
    | some entry =>
      rw [hentry] at h htarget
      obtain ⟨⟨assigned, r⟩, s₅, hmerge, h⟩ := run_bind_eq_ok h
      obtain ⟨hout, rfl⟩ := Prod.mk.inj h
      refine Or.inr ⟨entry, assignees, assigned, r, htarget, hmerge, ?_⟩
      rintro e rfl
      rw [← Except.ok.inj hout]
      rfl
    | none =>
      rw [hentry] at h htarget
      obtain ⟨intent, -, h⟩ := run_bind_ofExcept_ok h
      obtain ⟨result, s₆, hcapture, h⟩ := run_bind_eq_ok h
      obtain ⟨-, rfl⟩ := Prod.mk.inj h
      exact Or.inl ⟨htarget, Or.inr ⟨intent, by rw [hcapture]⟩⟩

/-- A call of the capture tool is logged unless its merge writes a row. -/
theorem captureTool_audited_iff (hs : s.TaskKeys) (hknown : s.knows (ctx.actor.map PersonRecord.id))
    {outcome : ToolOutcome} (h : (captureTool ctx args box).run s = (.ok outcome, s'))
    (hsaid : ∀ e, outcome.said ≠ .error e) : Audited s s' ↔ (Operation.captureTool ctx args box).Logs s := by
  rcases captureTool_cases h with ⟨hnone, hstate⟩ | ⟨entry, names, assigned, r, htarget, hmerge, hstopped⟩
  · refine iff_of_true ?_ fun entry names htarget => absurd (hnone.symm.trans htarget) (Option.some_ne_none _).symm
    rcases hstate with rfl | ⟨intent, rfl⟩
    · exact Audited.refl _
    · exact captureTask_audited hs hknown
  · cases r with
    | error e => exact absurd (hstopped e rfl) (hsaid e)
    | ok u =>
      rw [mergeAssignees_ok hmerge, merged_audited_iff]
      constructor
      · rintro hall entry' names' htarget'
        obtain ⟨rfl, rfl⟩ := Prod.mk.inj (Option.some.inj (htarget.symm.trans htarget'))
        exact hall
      · intro hlogs
        exact hlogs entry names htarget

end Merge

/-- Every change of a successful operation is logged, unless it retires a
proposal or merges somebody into a captured task. -/
theorem operation_audited_iff (op : Operation) (s s' : Store) (hs : s.TaskKeys) (hknown : s.knows op.actorId)
    (h : op.program.run s = (.ok (), s')) : Audited s s' ↔ op.Logs s := by
  have hstore : (op.program.run s).2 = s' := by rw [h]
  cases op with
  | addProject solver intent actor people template today existing overrides sink =>
    obtain ⟨result, hrun⟩ := run_bind_unit_ok h
    rcases addProject_cases hrun with ⟨e, he, -⟩ | ⟨result', -, hproposed⟩
    · cases he
    · exact iff_of_true (addProject_audited hproposed) trivial
  | confirm sink pvId actor =>
    obtain ⟨result, hrun⟩ := run_bind_unit_ok h
    exact iff_of_true (confirmPlan_audited hrun) trivial
  | supersede oldPvId =>
    rw [← hstore]
    exact supersede_audited_iff
  | capture U sink intent actor =>
    obtain ⟨result, hrun⟩ := run_bind_unit_ok h
    have haudited := @captureTask_audited s hs U sink intent actor hknown
    rw [hrun] at haudited
    exact iff_of_true haudited trivial
  | captureTool ctx args box =>
    obtain ⟨outcome, s₁, hrun, hsaid⟩ := run_bind_eq_ok h
    rw [run_ofExcept] at hsaid
    obtain ⟨hsaid, rfl⟩ := Prod.mk.inj hsaid
    refine captureTool_audited_iff hs hknown hrun fun e he => ?_
    rw [he] at hsaid
    cases hsaid
  | assign U taskRef personName actorId =>
    obtain ⟨text, hrun⟩ := run_bind_unit_ok h
    have haudited := @buildAssignReply_audited s actorId hknown U taskRef personName
    rw [hrun] at haudited
    exact iff_of_true haudited trivial
  | markDone taskId actorId isAdmin status =>
    rw [← hstore]
    exact iff_of_true (markTaskDone_audited hknown taskId isAdmin status) trivial
  | setVacation intent actorId isAdmin =>
    obtain ⟨days, hrun⟩ := run_bind_unit_ok h
    have haudited := @setVacation_audited s actorId hknown intent isAdmin
    rw [hrun] at haudited
    exact iff_of_true haudited trivial
  | reassign isAdmin taskId personId actorId =>
    rw [← hstore]
    exact iff_of_true (reassign_audited hknown isAdmin taskId personId) trivial
  | editTask isAdmin taskId start end_ actorId =>
    rw [← hstore]
    exact iff_of_true (editTask_audited hknown isAdmin taskId start end_) trivial

section Shooting

theorem proposedShooting_taskKeys : proposedShooting.TaskKeys := by
  refine ⟨?_, ?_, ?_, ?_⟩ <;> decide

theorem operation_audited_iff_shooting :
    Audited proposedShooting ((Operation.supersede 6).program.run proposedShooting).2 ↔
      (Operation.supersede 6).Logs proposedShooting :=
  operation_audited_iff (.supersede 6) proposedShooting _ proposedShooting_taskKeys nofun rfl

/-- A proposal is edited, its version retired, and the log does not tell. -/
theorem supersede_unlogged : ((Operation.supersede 6).program.run proposedShooting).1 = .ok () ∧
    (((Operation.supersede 6).program.run proposedShooting).2.standing 6).map Prod.snd = some .superseded ∧
    ¬ Audited proposedShooting ((Operation.supersede 6).program.run proposedShooting).2 :=
  ⟨rfl, rfl, fun h => supersede_audited_iff.mp h ⟨_, rfl, rfl⟩⟩

end Shooting

end Planner
