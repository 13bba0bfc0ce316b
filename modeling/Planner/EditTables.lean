import Planner.CommittedVersion
import Planner.Edits

/-! What the edits of the board, finished tasks and vacations leave in the
tables, and that a well-formed store stays well-formed. -/

namespace Planner

open Program

namespace Store

def logged (s : Store) (audit : List AuditRow) : Store := { s with audit := audit }

/-- The tables after a reassignment, but for the audit. -/
def reassigned (s : Store) (taskId personId : UUID) : Store :=
  (s.setAssignee taskId personId 8).editInPlan taskId fun a =>
    { a with
      personId := personId
      allocations := a.allocations.map ({ · with personId := personId }) }

/-- The tables after a date edit, but for the audit. -/
def rescheduled (s : Store) (taskId : UUID) (start end_ : Option Date) : Store :=
  (s.modifyTask taskId fun t =>
    { t with startDate := start.or t.startDate, endDate := end_.or t.endDate }).editInPlan taskId fun a =>
    { a with startDate := start.getD a.startDate, endDate := end_.getD a.endDate }

end Store

theorem editInPlan_run (taskId : UUID) (f : Assignment → Assignment) (s : Store) :
    ∃ moved, (Repo.editInPlan taskId f).run s = (.ok moved, s.editInPlan taskId f) := by
  simp only [Repo.editInPlan, run_call, Store.editInPlan]
  cases s.committedVersionOf taskId with
  | none => exact ⟨_, rfl⟩
  | some v => exact ⟨_, rfl⟩

theorem addAudit_run (actorId : Option UUID) (action entityType : String) (entityId : Option UUID)
    (payload : Option (List (String × AuditValue))) (s : Store) :
    ∃ audit, ((Repo.addAudit actorId action entityType entityId payload).run s).2 = s.logged audit := by
  simp only [Repo.addAudit, run_call]
  split
  · exact ⟨_, rfl⟩
  · exact ⟨s.audit, rfl⟩

/-- A known task and a known person, named by an admin. -/
def Reassigns (s : Store) (isAdmin : Bool) (taskId personId : FormField UUID) (tid pid : UUID) : Prop :=
  isAdmin = true ∧ taskId = .value tid ∧ personId = .value pid ∧ tid ∈ s.tasks.keys ∧ pid ∈ s.people.keys

theorem mem_listPeople {s : Store} {pid : UUID} :
    (∃ p ∈ s.peopleByName.map fun e => e.2.record e.1, p.id = pid) ↔ pid ∈ s.people.keys := by
  simp only [List.mem_map, Store.peopleByName, List.mem_insertionSort, OrdDict.keys]
  constructor
  · rintro ⟨p, ⟨e, he, rfl⟩, rfl⟩
    exact ⟨e, he, rfl⟩
  · rintro ⟨e, he, rfl⟩
    exact ⟨_, ⟨e, he, rfl⟩, rfl⟩

theorem reassign_value_run (tid pid : UUID) (actorId : Option UUID) (s : Store) :
    ∃ audit, ((reassign true (.value tid) (.value pid) actorId).run s).2 =
      if tid ∈ s.tasks.keys ∧ pid ∈ s.people.keys then (s.reassigned tid pid).logged audit else s := by
  simp only [reassign, Bool.not_true, Bool.false_eq_true, if_false]
  simp only [run_bind, Repo.listPeople, run_read]
  by_cases hp : pid ∈ s.people.keys
  · have hall : ¬ (s.peopleByName.map fun e => e.2.record e.1).all (fun p => p.id ≠ pid) = true := by
      obtain ⟨p, hm, hid⟩ := mem_listPeople.mpr hp
      exact fun hall => absurd hid (by simpa using List.all_eq_true.mp hall p hm)
    rw [if_neg hall]
    simp only [run_bind, Repo.setTaskAssignee, run_call]
    by_cases ht : tid ∈ s.tasks.keys
    · obtain ⟨moved, hedit⟩ := editInPlan_run tid (fun a => { a with
        personId := pid, allocations := a.allocations.map ({ · with personId := pid }) })
        (s.setAssignee tid pid 8)
      obtain ⟨audit, haudit⟩ := addAudit_run actorId "reassign_task" "task" (some tid)
        (some [("person_id", .text (toString pid))]) (s.reassigned tid pid)
      refine ⟨audit, ?_⟩
      simp only [ht, hp, not_true_eq_false, and_self, if_false, if_true, run_bind, Repo.reassignInPlan,
        hedit]
      exact haudit
    · refine ⟨[], ?_⟩
      simp only [ht, not_false_eq_true, if_true, false_and, if_false]
      rfl
  · have hall : (s.peopleByName.map fun e => e.2.record e.1).all (fun p => p.id ≠ pid) = true := by
      refine List.all_eq_true.mpr fun p hm => decide_eq_true fun hid => ?_
      exact hp (mem_listPeople.mp ⟨p, hm, hid⟩)
    rw [if_pos hall]
    refine ⟨[], ?_⟩
    simp only [hp, and_false, if_false]
    rfl

theorem reassign_cases (isAdmin : Bool) (taskId personId : FormField UUID) (actorId : Option UUID)
    (s : Store) :
    (∃ tid pid audit, Reassigns s isAdmin taskId personId tid pid ∧
      ((reassign isAdmin taskId personId actorId).run s).2 = (s.reassigned tid pid).logged audit) ∨
    (∀ tid pid, ¬ Reassigns s isAdmin taskId personId tid pid) ∧
      ((reassign isAdmin taskId personId actorId).run s).2 = s := by
  by_cases hfields : isAdmin = true ∧ ∃ tid pid, taskId = .value tid ∧ personId = .value pid
  · obtain ⟨rfl, tid, pid, rfl, rfl⟩ := hfields
    obtain ⟨audit, hrun⟩ := reassign_value_run tid pid actorId s
    by_cases hk : tid ∈ s.tasks.keys ∧ pid ∈ s.people.keys
    · exact Or.inl ⟨tid, pid, audit, ⟨rfl, rfl, rfl, hk⟩, by rw [hrun, if_pos hk]⟩
    · refine Or.inr ⟨?_, by rw [hrun, if_neg hk]⟩
      rintro t p ⟨-, ht, hp, hkeys⟩
      cases ht
      cases hp
      exact hk hkeys
  · refine Or.inr ⟨fun tid pid h => hfields ⟨h.1, tid, pid, h.2.1, h.2.2.1⟩, ?_⟩
    unfold reassign
    cases isAdmin with
    | false => rfl
    | true =>
      rcases personId with _ | _ | pid
      · rfl
      · rfl
      · rcases taskId with _ | _ | tid
        · rfl
        · rfl
        · exact absurd ⟨rfl, tid, pid, rfl, rfl⟩ hfields

/-- Two fields that parse, sent by an admin. -/
def Reschedules (isAdmin : Bool) (start end_ : FormField Date) : Prop :=
  isAdmin = true ∧ start ≠ .bad ∧ end_ ≠ .bad

def FormField.value? {α : Type} : FormField α → Option α
  | .value a => some a
  | _ => none

theorem toDate_run (field : FormField Date) (s : Store) :
    field.toDate.run s = (if field = .bad then .error .value else .ok field.value?, s) := by
  cases field <;> rfl

theorem editTask_cases (isAdmin : Bool) (taskId : UUID) (start end_ : FormField Date)
    (actorId : Option UUID) (s : Store) :
    (∃ audit, Reschedules isAdmin start end_ ∧ ((editTask isAdmin taskId start end_ actorId).run s).2 =
      (s.rescheduled taskId start.value? end_.value?).logged audit) ∨
    ¬ Reschedules isAdmin start end_ ∧ ((editTask isAdmin taskId start end_ actorId).run s).2 = s := by
  unfold editTask
  cases isAdmin with
  | false => exact Or.inr ⟨fun h => Bool.false_ne_true h.1, rfl⟩
  | true =>
    by_cases hs : start = .bad
    · exact Or.inr ⟨fun h => h.2.1 hs, by simp [run_bind, toDate_run, hs]⟩
    · by_cases he : end_ = .bad
      · exact Or.inr ⟨fun h => h.2.2 he, by simp [run_bind, toDate_run, hs, he]⟩
      · obtain ⟨moved, hedit⟩ := editInPlan_run taskId (fun a => { a with
          startDate := start.value?.getD a.startDate, endDate := end_.value?.getD a.endDate })
          (s.modifyTask taskId fun t =>
            { t with startDate := start.value?.or t.startDate, endDate := end_.value?.or t.endDate })
        obtain ⟨audit, haudit⟩ := addAudit_run actorId "edit_task" "task" (some taskId)
          (some [("start", .text ((start.value?.map Date.isoformat).getD "")),
            ("end", .text ((end_.value?.map Date.isoformat).getD ""))])
          (s.rescheduled taskId start.value? end_.value?)
        refine Or.inl ⟨audit, ⟨rfl, hs, he⟩, ?_⟩
        rw [← haudit]
        simp only [Bool.not_true, Bool.false_eq_true, if_false, run_bind, toDate_run, hs, he,
          Repo.updateTaskSchedule, run_call, Repo.updateScheduleInPlan, hedit]
        rfl

theorem markTaskDone_cases (taskId : UUID) (actorId : Option UUID) (isAdmin : Bool) (status : String)
    (s : Store) :
    ((markTaskDone taskId actorId isAdmin status).run s).2 = s ∨
      ∃ st audit, taskStatusOf status = some st ∧
        ((markTaskDone taskId actorId isAdmin status).run s).2 =
          (s.modifyTask taskId ({ · with status := st })).logged audit := by
  unfold markTaskDone
  split
  · exact Or.inl rfl
  · cases hst : taskStatusOf status with
    | none => exact Or.inl rfl
    | some st =>
      obtain ⟨audit, haudit⟩ := addAudit_run actorId "mark_task" "task" (some taskId)
        (some [("status", .text status)]) (s.modifyTask taskId ({ · with status := st }))
      refine Or.inr ⟨st, audit, rfl, ?_⟩
      rw [← haudit]
      simp only [run_bind, Repo.setTaskStatus, run_call]

/-- Only the overrides of known people change, and the audit. -/
structure Vacated (s s' : Store) : Prop where
  eq : ∃ overrides audit, s' = { s with dayOverrides := overrides, audit := audit }
  people : ∀ k ∈ s'.dayOverrides.keys, k ∈ s.dayOverrides.keys ∨ k.1 ∈ s.people.keys

theorem Vacated.refl (s : Store) : Vacated s s := ⟨⟨_, _, rfl⟩, fun _ => Or.inl⟩

theorem Vacated.trans {s t u : Store} (h : Vacated s t) (h' : Vacated t u) : Vacated s u := by
  obtain ⟨⟨o, a, rfl⟩, hp⟩ := h
  obtain ⟨⟨o', a', rfl⟩, hp'⟩ := h'
  exact ⟨⟨o', a', rfl⟩, fun k hk => (hp' k hk).elim (hp k) Or.inr⟩

theorem upsertDays_vacated (personId : UUID) (capacityH : Int) (n : Nat) (day : Date) (s : Store) :
    Vacated s ((upsertDays personId capacityH n day).run s).2 := by
  induction n generalizing day s with
  | zero => exact Vacated.refl s
  | succ n ih =>
    simp only [upsertDays, run_bind, Repo.upsertDayOverride, run_call]
    by_cases hp : personId ∈ s.people.keys
    · simp only [if_pos hp]
      refine Vacated.trans ⟨⟨_, s.audit, rfl⟩, fun k hk => ?_⟩ (ih (day + 1) _)
      rcases OrdDict.mem_keys_insert.mp hk with rfl | hk
      · exact Or.inr hp
      · exact Or.inl hk
    · simp only [if_neg hp]
      exact Vacated.refl s

theorem setVacation_vacated (intent : VacationIntent) (actorId : Option UUID) (isAdmin : Bool)
    (s : Store) : Vacated s ((setVacation intent actorId isAdmin).run s).2 := by
  unfold setVacation
  split
  · exact Vacated.refl s
  · rw [run_bind, run_ofExcept]
    cases validVacation intent with
    | error e => exact Vacated.refl s
    | ok _ =>
      simp only [run_bind, Repo.getPersonByName, run_read]
      cases s.personByName intent.personName with
      | none => exact Vacated.refl s
      | some person =>
        have hdays := upsertDays_vacated person.id intent.capacityH
          (intent.dayTo - intent.dayFrom + 1) intent.dayFrom s
        rcases hrun : (upsertDays person.id intent.capacityH (intent.dayTo - intent.dayFrom + 1)
          intent.dayFrom).run s with ⟨_ | _, t⟩ <;> rw [hrun] at hdays
        · rw [run_bind_of_error hrun]
          exact hdays
        · obtain ⟨audit, haudit⟩ := addAudit_run actorId "set_vacation" "day_override" (some person.id)
            (some [("from", .text intent.dayFrom.isoformat), ("to", .text intent.dayTo.isoformat),
              ("capacity_h", .number intent.capacityH)]) t
          rw [run_bind_of_ok hrun, run_bind_pure, haudit]
          exact hdays.trans ⟨⟨_, _, rfl⟩, fun _ => Or.inl⟩

end Planner
