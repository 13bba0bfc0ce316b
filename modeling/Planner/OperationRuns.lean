import Planner.CaptureRuns
import Planner.EditTables

/-! What an assignment in the chat, a mark and a vacation write when nothing comes in
between: an operation has written and left its audit entry, or it has written nothing. -/

namespace Planner

open Program

theorem addAudit_known {s : Store} {actorId : Option UUID} (hknown : s.knows actorId) (action entityType : String)
    (entityId : Option UUID) (payload : Option (List (String × AuditValue))) :
    (Repo.addAudit actorId action entityType entityId payload).run s =
      (.ok (), s.putAudit ⟨actorId, action, entityType, entityId, payload⟩) := by
  simp only [Repo.addAudit, run_call, if_pos hknown]

theorem mem_matchTasks {U : CharTables} {ref : String} {tasks : List (UUID × String)} {t : UUID × String}
    (h : t ∈ matchTasks U ref tasks) : t ∈ tasks := by
  unfold matchTasks at h
  dsimp only at h
  split at h
  · cases h
  · split at h <;> exact List.mem_of_mem_filter h

namespace Store

variable (U : CharTables) (s : Store)

/-- `list_tasks_with_meta`. -/
def tasksWithMeta : List (UUID × String) :=
  let title := fun e : UUID × TaskRow => ((s.projects.get? e.2.projectId).map ProjectRow.title).getD ""
  let rows := s.tasks.entries.insertionSort fun a b => title a < title b ∨ title a = title b ∧ a.2.name ≤ b.2.name
  rows.flatMap fun e => List.replicate (max 1 (s.assignments.keys.countP fun k => k.1 = e.1)) (e.1, e.2.name)

theorem mem_tasksWithMeta {s : Store} {t : UUID × String} (h : t ∈ s.tasksWithMeta) : t.1 ∈ s.tasks.keys := by
  obtain ⟨e, he, ht⟩ := List.mem_flatMap.mp h
  obtain rfl := List.eq_of_mem_replicate ht
  exact List.mem_map_of_mem ((List.mem_insertionSort _).mp he)

/-- The reference names one task, and the name is somebody's. -/
def Assigns (taskRef personName : String) : Prop :=
  (s.personByName personName).isSome ∧ ∃ task, matchTasks U taskRef s.tasksWithMeta = [task]

def reassignAudit (taskId personId : UUID) (actorId : Option UUID) : AuditRow :=
  ⟨actorId, "reassign_task", "task", some taskId, some [("person_id", .text (toString personId))]⟩

/-- The period is valid, and the name is somebody's. -/
def Vacates (intent : VacationIntent) : Prop :=
  validVacation intent = .ok () ∧ (s.personByName intent.personName).isSome

/-- The rows of a vacation, day by day. -/
def daysOff (personId : UUID) (capacityH : Int) : Nat → Date → Store → Store
  | 0, _, s => s
  | n + 1, day, s => daysOff personId capacityH n (day + 1) (s.putOverride personId day ⟨capacityH, some "vacation"⟩)

def vacationAudit (intent : VacationIntent) (personId : UUID) (actorId : Option UUID) : AuditRow :=
  ⟨actorId, "set_vacation", "day_override", some personId, some [("from", .text intent.dayFrom.isoformat),
    ("to", .text intent.dayTo.isoformat), ("capacity_h", .number intent.capacityH)]⟩

theorem daysOff_eq (personId : UUID) (capacityH : Int) (n : Nat) (day : Date) (s : Store) :
    daysOff personId capacityH n day s =
      { s with dayOverrides := (daysOff personId capacityH n day s).dayOverrides } := by
  induction n generalizing day s with
  | zero => rfl
  | succ n ih => exact ih (day + 1) (s.putOverride personId day ⟨capacityH, some "vacation"⟩)

theorem get?_daysOff {personId q : UUID} (hne : q ≠ personId) (capacityH : Int) (n : Nat) (day d : Date) (s : Store) :
    (daysOff personId capacityH n day s).dayOverrides.get? (q, d) = s.dayOverrides.get? (q, d) := by
  induction n generalizing day s with
  | zero => rfl
  | succ n ih =>
    have hother : (q, d) ≠ (personId, day) := fun he => hne (Prod.mk.inj he).1
    rw [daysOff, ih, putOverride, OrdDict.get?_insert_of_ne _ _ hother]

end Store

section Assign

variable {U : CharTables} {s : Store} {actorId : Option UUID}

theorem setTaskAssignee_run {taskId personId : UUID} (ht : taskId ∈ s.tasks.keys) (hp : personId ∈ s.people.keys) :
    (Repo.setTaskAssignee taskId personId).run s = (.ok true, s.setAssignee taskId personId 8) := by
  simp only [Repo.setTaskAssignee, run_call, ht, hp, not_true_eq_false, if_false, if_true]

theorem buildAssignReply_run (hknown : s.knows actorId) (taskRef personName : String) :
    (¬ s.Assigns U taskRef personName ∧ ∃ text, (buildAssignReply U taskRef personName actorId).run s = (.ok text, s)) ∨
    ∃ person task text, s.personByName personName = some person ∧ matchTasks U taskRef s.tasksWithMeta = [task] ∧
      task.1 ∈ s.tasks.keys ∧ (buildAssignReply U taskRef personName actorId).run s =
        (.ok text, (s.reassigned task.1 person.id).putAudit (Store.reassignAudit task.1 person.id actorId)) := by
  simp only [buildAssignReply, run_bind, Repo.getPersonByName, run_read]
  cases hperson : s.personByName personName with
  | none =>
    refine Or.inl ⟨?_, _, rfl⟩
    rintro ⟨hsome, -⟩
    rw [hperson] at hsome
    cases hsome
  | some person =>
    have hmeta : Repo.listTasksWithMeta.run s = (.ok s.tasksWithMeta, s) := run_read _ _
    simp only [run_bind_of_ok hmeta]
    cases hmatch : matchTasks U taskRef s.tasksWithMeta with
    | nil =>
      refine Or.inl ⟨?_, _, rfl⟩
      rintro ⟨-, task, htask⟩
      cases hmatch.symm.trans htask
    | cons task rest =>
      cases rest with
      | cons task' rest =>
        refine Or.inl ⟨?_, _, rfl⟩
        rintro ⟨-, t, ht⟩
        cases hmatch.symm.trans ht
      | nil =>
        have htask : task.1 ∈ s.tasks.keys :=
          Store.mem_tasksWithMeta (mem_matchTasks (hmatch ▸ List.mem_singleton_self task))
        have hassignee := setTaskAssignee_run htask (Store.personByName_mem hperson)
        obtain ⟨moved, hedit⟩ := editInPlan_run task.1 (fun a => { a with
          personId := person.id, allocations := a.allocations.map ({ · with personId := person.id }) })
          (s.setAssignee task.1 person.id 8)
        have hknows : (s.reassigned task.1 person.id).knows actorId := by
          intro p hp
          rw [Store.reassigned, Store.people_editInPlan]
          exact hknown p hp
        refine Or.inr ⟨person, task, "Назначил «" ++ task.2 ++ "» на " ++ person.name ++ ".", rfl, rfl, htask, ?_⟩
        rw [run_bind_of_ok hassignee]
        simp only [if_true]
        refine (run_bind_of_ok hedit).trans ?_
        refine (run_bind_of_ok (addAudit_known hknows _ _ _ _)).trans ?_
        rfl

end Assign

section Vacation

variable {s : Store} {actorId : Option UUID}

theorem upsertDays_run {personId : UUID} (hp : personId ∈ s.people.keys) (capacityH : Int) (n : Nat) (day : Date) :
    (upsertDays personId capacityH n day).run s = (.ok (), Store.daysOff personId capacityH n day s) := by
  induction n generalizing day s with
  | zero => rfl
  | succ n ih =>
    simp only [upsertDays, run_bind, Repo.upsertDayOverride, run_call, if_pos hp, Store.daysOff]
    exact ih (s := s.putOverride personId day ⟨capacityH, some "vacation"⟩) hp (day + 1)

theorem setVacation_run (hknown : s.knows actorId) (intent : VacationIntent) :
    (¬ s.Vacates intent ∧ ∃ e, (setVacation intent actorId true).run s = (.error e, s)) ∨
    ∃ person, s.Vacates intent ∧ s.personByName intent.personName = some person ∧
      (setVacation intent actorId true).run s = (.ok (intent.dayTo - intent.dayFrom + 1),
        (Store.daysOff person.id intent.capacityH (intent.dayTo - intent.dayFrom + 1) intent.dayFrom s).putAudit
          (Store.vacationAudit intent person.id actorId)) := by
  simp only [setVacation, Bool.not_true, Bool.false_eq_true, if_false, run_bind, run_ofExcept]
  cases hvalid : validVacation intent with
  | error e =>
    refine Or.inl ⟨?_, _, rfl⟩
    rintro ⟨hok, -⟩
    cases hvalid.symm.trans hok
  | ok u =>
    simp only [Repo.getPersonByName, run_read]
    cases hperson : s.personByName intent.personName with
    | none =>
      refine Or.inl ⟨?_, _, rfl⟩
      rintro ⟨-, hsome⟩
      rw [hperson] at hsome
      cases hsome
    | some person =>
      have hdays := upsertDays_run (Store.personByName_mem hperson) intent.capacityH
        (intent.dayTo - intent.dayFrom + 1) intent.dayFrom
      have hknows : (Store.daysOff person.id intent.capacityH (intent.dayTo - intent.dayFrom + 1) intent.dayFrom
          s).knows actorId := by
        rw [Store.daysOff_eq]
        exact hknown
      refine Or.inr ⟨person, ⟨hvalid, by rw [hperson]; rfl⟩, rfl, ?_⟩
      rw [run_bind_of_ok hdays, run_bind_of_ok (addAudit_known hknows _ _ _ _)]
      rfl

end Vacation

/-- The entry that a mark leaves. -/
def Store.markAudit (taskId : UUID) (actorId : Option UUID) : AuditRow :=
  ⟨actorId, "mark_task", "task", some taskId, some [("status", .text "done")]⟩

theorem markTaskDone_run {s : Store} {actorId : Option UUID} (hknown : s.knows actorId) (t : UUID) :
    (markTaskDone t actorId true).run s =
      (.ok (), (s.modifyTask t ({ · with status := .done })).putAudit (Store.markAudit t actorId)) := by
  have hknows : (s.modifyTask t ({ · with status := .done })).knows actorId := hknown
  have haudit := addAudit_known hknows "mark_task" "task" (some t) (some [("status", .text "done")])
  simp only [markTaskDone, Bool.not_true, Bool.false_eq_true, if_false, taskStatusOf, run_bind, Repo.setTaskStatus,
    run_call, haudit]
  rfl

end Planner
