import Planner.Acts

/-! What a request does to a plan version, to the rows of a task and to a
well-formed store. Every run is followed through these alone. -/

namespace Planner

def Assignment.edited (a : Assignment) (person : Option UUID) (start end_ : Option Date) : Assignment where
  taskId := a.taskId
  personId := person.getD a.personId
  startDate := start.getD a.startDate
  endDate := end_.getD a.endDate
  allocations := a.allocations.map fun al => { al with personId := person.getD al.personId }

/-- A committed payload after a request. -/
def Payload.edited (p : Payload) (s : Store) (act : Act) : Payload :=
  { p with assignments := p.assignments.map fun a =>
      a.edited (act.assignee? a.taskId s) (act.start? a.taskId s) (act.end? a.taskId s) }

/-- The row of a person after a reassignment, if there was one. -/
def rowAfter (assignee : Option UUID) (p : UUID) (hours : Option Int) : Option Int :=
  match assignee with
  | none => hours
  | some q => if p = q then some 8 else none

@[simp] theorem Assignment.edited_none (a : Assignment) : a.edited none none none = a := by
  simp [edited]

theorem Payload.edited_silent {p : Payload} {s : Store} {act : Act} (h : act.Silent s) :
    p.edited s act = p := by
  simp [Payload.edited, h.assignee, h.start, h.end_]

theorem Payload.editTask_reassigned (p : Payload) {s : Store} {tid pid : UUID}
    (ht : tid ∈ s.tasks.keys) (hp : pid ∈ s.people.keys) (actorId : Option UUID) :
    p.editTask tid (fun a => { a with
      personId := pid, allocations := a.allocations.map ({ · with personId := pid }) }) =
      p.edited s (.reassign true (.value tid) (.value pid) actorId) := by
  simp only [editTask, Payload.edited, Payload.mk.injEq, and_true]
  refine List.map_congr_left fun a _ => ?_
  by_cases h : a.taskId = tid
  · simp [h, Act.assignee?, Act.start?, Act.end?, ht, hp, Assignment.edited]
  · have h' : ¬ tid = a.taskId := fun he => h he.symm
    simp [h, h', Act.assignee?, Act.start?, Act.end?]

theorem Payload.editTask_rescheduled (p : Payload) (s : Store) (taskId : UUID)
    {start end_ : FormField Date} (hs : start ≠ .bad) (he : end_ ≠ .bad) (actorId : Option UUID) :
    p.editTask taskId (fun a => { a with
      startDate := start.value?.getD a.startDate, endDate := end_.value?.getD a.endDate }) =
      p.edited s (.editTask true taskId start end_ actorId) := by
  simp only [editTask, Payload.edited, Payload.mk.injEq, and_true]
  refine List.map_congr_left fun a _ => ?_
  by_cases h : a.taskId = taskId
  · simp [h, Act.assignee?, Act.start?, Act.end?, hs, he, Assignment.edited]
  · have h' : ¬ taskId = a.taskId := fun he => h he.symm
    simp [h, h', Act.assignee?, Act.start?, Act.end?]

namespace Store.WF

variable {s : Store}

theorem logged (hs : s.WF) (audit : List AuditRow) : (s.logged audit).WF := { hs with }

theorem modifyTask (hs : s.WF) (taskId : UUID) {f : TaskRow → TaskRow}
    (hf : ∀ t, (f t).projectId = t.projectId) : (s.modifyTask taskId f).WF := by
  have hkeys : (s.modifyTask taskId f).tasks.keys = s.tasks.keys := OrdDict.keys_modify _ _ _
  have hprojects : (s.modifyTask taskId f).tasks.values.map TaskRow.projectId =
      s.tasks.values.map TaskRow.projectId := OrdDict.map_values_modify _ _ hf
  refine { hs with
    task_lt := ?_, task_project := ?_, assignment_keys := ?_, dependency_tasks := ?_
    planned_task := ?_ }
  · rw [hkeys]
    exact hs.task_lt
  · intro row hrow
    have hm := List.mem_map_of_mem (f := TaskRow.projectId) hrow
    rw [hprojects] at hm
    obtain ⟨old, hold, he⟩ := List.mem_map.mp hm
    exact he ▸ hs.task_project old hold
  · rw [hkeys]
    exact hs.assignment_keys
  · rw [hkeys]
    exact hs.dependency_tasks
  · rw [hkeys]
    exact hs.planned_task

theorem setAssignee (hs : s.WF) {taskId personId : UUID} (ht : taskId ∈ s.tasks.keys)
    (hp : personId ∈ s.people.keys) (hours : Int) : (s.setAssignee taskId personId hours).WF := by
  refine { hs with assignment_keys := fun k hk => ?_ }
  rcases OrdDict.mem_keys_insert.mp hk with rfl | hk
  · exact ⟨ht, hp⟩
  · exact hs.assignment_keys k (OrdDict.mem_keys_filter hk)

theorem vacated {s' : Store} (hs : s.WF) (h : Vacated s s') : s'.WF := by
  obtain ⟨⟨overrides, audit, rfl⟩, hpeople⟩ := h
  exact { hs with
    override_person := fun k hk => (hpeople k hk).elim (hs.override_person k) id }

end Store.WF

namespace Act

variable {s : Store}

theorem perform_wf (act : Act) (hs : s.WF) : (act.perform s).WF := by
  have h := act.effect s
  generalize act.perform s = s' at h
  cases h with
  | idle => exact hs
  | abandoned h => exact h.wf hs
  | proposed h => exact h.wf hs
  | confirmed _ h => exact h.wf hs
  | marked st audit => exact (hs.modifyTask _ fun _ => by rfl).logged audit
  | vacated h => exact hs.vacated h
  | reassigned ht hp audit =>
    exact ((hs.setAssignee ht hp 8).editInPlan _ fun _ => by rfl).logged audit
  | rescheduled _ _ audit =>
    exact ((hs.modifyTask _ fun _ => by rfl).editInPlan _ fun _ => by rfl).logged audit

theorem perform_version (act : Act) (hs : s.WF) {v : UUID} {pv : PlanVersionRow}
    (hv : s.planVersions.get? v = some pv) :
    (act.perform s).planVersions.get? v = some { pv with
      status := if pv.status = .proposed ∧ act.confirms v = true then .committed else pv.status
      payload := if pv.status = .committed then pv.payload.edited s act else pv.payload } := by
  have h := act.effect s
  generalize act.perform s = s' at h
  have hkeep : ∀ {act : Act}, act.Silent s → act.confirms v = false → some pv = some { pv with
      status := if pv.status = .proposed ∧ act.confirms v = true then .committed else pv.status
      payload := if pv.status = .committed then pv.payload.edited s act else pv.payload } := by
    intro act hsilent hconfirm
    simp [hconfirm, Payload.edited_silent hsilent]
  cases h with
  | idle hsilent hconfirm =>
    rw [hv]
    by_cases hc : act.confirms v = true
    · have hp : pv.status ≠ .proposed := fun hp => hconfirm v hc ⟨pv, hv, hp⟩
      simp [hp, Payload.edited_silent hsilent]
    · exact hkeep hsilent (by simpa using hc)
  | abandoned h =>
    rw [h.planVersions, hv]
    exact hkeep ⟨fun _ => rfl, fun _ => rfl, fun _ => rfl⟩ rfl
  | @proposed _ _ _ _ _ _ _ _ _ result _ h =>
    have hne : v ≠ result.planVersionId :=
      fun he => h.version_new hs (he ▸ OrdDict.mem_keys.mpr (by simp [hv]))
    rw [h.planVersions, OrdDict.get?_insert_of_ne _ _ hne, hv]
    exact hkeep ⟨fun _ => rfl, fun _ => rfl, fun _ => rfl⟩ rfl
  | @confirmed sink w actor _ hp h =>
    have hsilent : Act.Silent s (.confirm sink w actor) := ⟨fun _ => rfl, fun _ => rfl, fun _ => rfl⟩
    rw [h.planVersions, Payload.edited_silent hsilent, ite_self]
    by_cases hvw : v = w
    · subst hvw
      obtain ⟨pw, hpw, hst⟩ := hp
      obtain rfl := Option.some.inj (hv.symm.trans hpw)
      rw [OrdDict.get?_modify_self, hv]
      simp [hst, confirms]
    · have hwv : ¬ w = v := fun he => hvw he.symm
      rw [OrdDict.get?_modify_of_ne _ _ hvw, hv]
      simp [hwv, confirms]
  | marked => exact hv.trans (hkeep ⟨fun _ => rfl, fun _ => rfl, fun _ => rfl⟩ rfl)
  | vacated h =>
    obtain ⟨⟨overrides, audit, rfl⟩, -⟩ := h
    exact hv.trans (hkeep ⟨fun _ => rfl, fun _ => rfl, fun _ => rfl⟩ rfl)
  | @reassigned tid pid actorId ht hp audit =>
    refine ((hs.setAssignee ht hp 8).get?_editInPlan hv _ _).trans ?_
    rw [Payload.editTask_reassigned _ ht hp actorId]
    by_cases hc : pv.status = .committed <;> simp [hc, confirms]
  | @rescheduled taskId _ _ actorId hst he audit =>
    refine ((hs.modifyTask _ fun _ => by rfl).get?_editInPlan hv _ _).trans ?_
    rw [Payload.editTask_rescheduled _ s _ hst he actorId]
    by_cases hc : pv.status = .committed <;> simp [hc, confirms]

theorem assignee?_known {act : Act} {t p : UUID} (h : act.assignee? t s = some p) :
    t ∈ s.tasks.keys ∧ p ∈ s.people.keys := by
  unfold assignee? at h
  split at h
  · split at h
    · rename_i hk
      exact ⟨hk.1 ▸ hk.2.1, Option.some.inj h ▸ hk.2.2⟩
    · cases h
  · cases h

theorem assignee?_of_confirms {act : Act} {v : UUID} (h : act.confirms v = true) (t : UUID) :
    act.assignee? t s = none := by
  cases act with
  | confirm => rfl
  | _ => cases h

theorem perform_row (act : Act) {t : UUID} (ht : t ∈ s.tasks.keys) (p : UUID) :
    (act.perform s).assignments.get? (t, p) = rowAfter (act.assignee? t s) p
      (s.assignments.get? (t, p)) := by
  have h := act.effect s
  generalize act.perform s = s' at h
  cases h with
  | idle hsilent => rw [hsilent.assignee, rowAfter]
  | abandoned h =>
    rw [h.assignments]
    rfl
  | proposed h =>
    rw [h.assignments]
    refine OrdDict.get?_insertAll_of_not_mem _ _ fun hm => ?_
    obtain ⟨r, hr, he⟩ := List.mem_map.mp hm
    obtain ⟨u, hu, hut⟩ := List.mem_map.mp (assignmentRows_task hr)
    rw [he] at hut
    exact h.recordable.tasks_new u hu (hut ▸ ht)
  | confirmed _ h => exact congrArg (OrdDict.get? · (t, p)) h.assignments
  | marked => rfl
  | vacated h =>
    obtain ⟨⟨overrides, audit, rfl⟩, -⟩ := h
    rfl
  | @reassigned tid pid _ htid hp audit =>
    change ((s.setAssignee tid pid 8).editInPlan tid _).assignments.get? (t, p) = _
    rw [Store.assignments_editInPlan, Store.setAssignee, OrdDict.get?_insert, OrdDict.get?_filter]
    by_cases h : tid = t
    · subst h
      by_cases hpp : p = pid <;> simp [hpp, assignee?, ht, hp, rowAfter]
    · have h' : ¬ t = tid := fun he => h he.symm
      cases s.assignments.get? (t, p) <;> simp [h, h', assignee?, rowAfter]
  | rescheduled =>
    change ((s.modifyTask _ _).editInPlan _ _).assignments.get? (t, p) = _
    rw [Store.assignments_editInPlan]
    rfl

theorem perform_new_version (act : Act) {v : UUID} {pv : PlanVersionRow}
    (hnone : s.planVersions.get? v = none) (hv : (act.perform s).planVersions.get? v = some pv) :
    ∃ solver intent actor people template today existing overrides result,
      Proposed solver intent actor people template today existing overrides s result (act.perform s) ∧
      v = result.planVersionId ∧ pv.status = .proposed ∧ pv.payload = serializePlan result.plan := by
  have h := act.effect s
  generalize act.perform s = s' at h hv
  have hkeys : s'.planVersions.keys = s.planVersions.keys → False := fun he =>
    OrdDict.get?_eq_none_iff.mp hnone (he ▸ OrdDict.mem_keys.mpr (by simp [hv]))
  cases h with
  | idle => exact (hkeys rfl).elim
  | abandoned h => exact (hkeys (by rw [h.planVersions])).elim
  | @proposed _ _ _ _ _ _ _ _ _ result _ h =>
    by_cases hvr : v = result.planVersionId
    · subst hvr
      rw [h.planVersions, OrdDict.get?_insert_self] at hv
      obtain rfl := Option.some.inj hv
      exact ⟨_, _, _, _, _, _, _, _, _, h, rfl, rfl, rfl⟩
    · rw [h.planVersions, OrdDict.get?_insert_of_ne _ _ hvr, hnone] at hv
      cases hv
  | confirmed _ h => exact (hkeys (by rw [h.planVersions, OrdDict.keys_modify])).elim
  | marked => exact (hkeys rfl).elim
  | vacated h =>
    obtain ⟨⟨overrides, audit, rfl⟩, -⟩ := h
    exact (hkeys rfl).elim
  | reassigned => exact (hkeys (Store.keys_editInPlan _ _)).elim
  | rescheduled => exact (hkeys (Store.keys_editInPlan _ _)).elim

/-- The committed payloads after a request: the old ones, edited, and those it confirms. -/
theorem mem_perform_committedPayloads (act : Act) (hs : s.WF) {payload : Payload} :
    payload ∈ (act.perform s).committedPayloads ↔
      (∃ old ∈ s.committedPayloads, payload = old.edited s act) ∨
        ∃ v pv, s.planVersions.get? v = some pv ∧ pv.status = .proposed ∧ act.confirms v = true ∧
          payload = pv.payload := by
  constructor
  · intro hp
    obtain ⟨v, pv, hv, hc, rfl⟩ := Store.mem_committedPayloads.mp hp
    cases hold : s.planVersions.get? v with
    | none =>
      obtain ⟨_, _, _, _, _, _, _, _, _, -, -, hst, -⟩ := act.perform_new_version hold hv
      rw [hst] at hc
      cases hc
    | some old =>
      rw [act.perform_version hs hold] at hv
      obtain rfl := Option.some.inj hv
      by_cases hcom : old.status = .committed
      · simp only [hcom, if_true]
        exact Or.inl ⟨_, Store.mem_committedPayloads.mpr ⟨v, old, hold, hcom, rfl⟩, rfl⟩
      · simp only [hcom, if_false] at hc ⊢
        split at hc
        · rename_i hp
          exact Or.inr ⟨v, old, hold, hp.1, hp.2, rfl⟩
        · exact absurd hc hcom
  · rintro (⟨old, hold, rfl⟩ | ⟨v, pv, hv, hst, hc, rfl⟩)
    · obtain ⟨v, pv, hv, hcom, rfl⟩ := Store.mem_committedPayloads.mp hold
      have hv' := act.perform_version hs hv
      simp only [hcom, reduceCtorEq, false_and, if_false, if_true] at hv'
      exact Store.mem_committedPayloads.mpr ⟨v, _, hv', rfl, rfl⟩
    · have hv' := act.perform_version hs hv
      simp only [hst, hc, and_self, if_true, reduceCtorEq, if_false] at hv'
      exact Store.mem_committedPayloads.mpr ⟨v, _, hv', rfl, rfl⟩

theorem perform_people (act : Act) : (act.perform s).people = s.people := by
  have h := act.effect s
  generalize act.perform s = s' at h
  cases h with
  | idle => rfl
  | abandoned h => exact h.people
  | proposed h => exact h.people_eq
  | confirmed _ h => exact h.people
  | marked => rfl
  | vacated h =>
    obtain ⟨⟨overrides, audit, rfl⟩, -⟩ := h
    rfl
  | reassigned => exact Store.people_editInPlan _ _
  | rescheduled => exact Store.people_editInPlan _ _

theorem perform_dependencies (act : Act) : (act.perform s).dependencies = s.dependencies := by
  have h := act.effect s
  generalize act.perform s = s' at h
  cases h with
  | idle => rfl
  | abandoned h => exact h.dependencies
  | proposed h => exact h.dependencies
  | confirmed _ h => exact h.dependencies
  | marked => rfl
  | vacated h =>
    obtain ⟨⟨overrides, audit, rfl⟩, -⟩ := h
    rfl
  | reassigned => exact Store.dependencies_editInPlan _ _
  | rescheduled => exact Store.dependencies_editInPlan _ _

theorem perform_tasks (act : Act) {t : UUID} (ht : t ∈ s.tasks.keys) : t ∈ (act.perform s).tasks.keys := by
  have h := act.effect s
  generalize act.perform s = s' at h
  cases h with
  | idle => exact ht
  | abandoned h => exact h.tasks ▸ ht
  | proposed h => exact h.mem_keys_tasks.mpr (Or.inr ht)
  | confirmed _ h => exact h.tasks ▸ ht
  | marked =>
    change t ∈ (s.tasks.modify _ _).keys
    rwa [OrdDict.keys_modify]
  | vacated h =>
    obtain ⟨⟨overrides, audit, rfl⟩, -⟩ := h
    exact ht
  | reassigned =>
    change t ∈ ((s.setAssignee _ _ _).editInPlan _ _).tasks.keys
    rwa [Store.tasks_editInPlan]
  | rescheduled =>
    change t ∈ ((s.modifyTask _ _).editInPlan _ _).tasks.keys
    rw [Store.tasks_editInPlan]
    change t ∈ (s.tasks.modify _ _).keys
    rwa [OrdDict.keys_modify]

end Act

end Planner
