import Planner.Capture
import Planner.Proposal

/-! What happens aside from the life of plan versions: no version appears, none
changes its status, and no project that is there changes its own. -/

namespace Planner

open Program

/-- The project and the status of a version. -/
def Store.standing (s : Store) (v : UUID) : Option (UUID × PlanStatus) :=
  (s.planVersions.get? v).map fun pv => (pv.projectId, pv.status)

def Store.projectStatus (s : Store) (p : UUID) : Option ProjectStatus :=
  (s.projects.get? p).map ProjectRow.status

structure Aside (s s' : Store) : Prop where
  versions : s'.planVersions.keys = s.planVersions.keys
  standing : ∀ v, s'.standing v = s.standing v
  projects : ∀ p ∈ s.projects.keys, p ∈ s'.projects.keys ∧ s'.projectStatus p = s.projectStatus p
  people : s'.people = s.people
  nextId : s.nextId ≤ s'.nextId

namespace Aside

variable {s t u : Store}

theorem of_eq (hv : t.planVersions = s.planVersions) (hp : t.projects = s.projects) (hpeople : t.people = s.people)
    (hnext : s.nextId ≤ t.nextId) : Aside s t :=
  ⟨by rw [hv], fun v => by rw [Store.standing, hv, Store.standing],
    fun p h => ⟨hp ▸ h, by rw [Store.projectStatus, hp, Store.projectStatus]⟩, hpeople, hnext⟩

theorem refl (s : Store) : Aside s s := of_eq rfl rfl rfl le_rfl

theorem trans (h : Aside s t) (h' : Aside t u) : Aside s u where
  versions := h'.versions.trans h.versions
  standing v := (h'.standing v).trans (h.standing v)
  projects p hp := ⟨(h'.projects p (h.projects p hp).1).1,
    (h'.projects p (h.projects p hp).1).2.trans (h.projects p hp).2⟩
  people := h'.people.trans h.people
  nextId := h.nextId.trans h'.nextId

theorem putProject {p : UUID} (hnew : p ∉ s.projects.keys) (row : ProjectRow) : Aside s (s.putProject p row) := by
  refine ⟨rfl, fun _ => rfl, fun q hq => ⟨OrdDict.mem_keys_insert.mpr (Or.inr hq), ?_⟩, rfl, le_rfl⟩
  have hne : q ≠ p := fun he => hnew (he ▸ hq)
  simp only [Store.projectStatus, Store.putProject, OrdDict.get?_insert_of_ne _ _ hne]

theorem modifyProject {p : UUID} {f : ProjectRow → ProjectRow} (hf : ∀ row, (f row).status = row.status) :
    Aside s (s.modifyProject p f) := by
  refine ⟨rfl, fun _ => rfl, fun q hq => ⟨?_, ?_⟩, rfl, le_rfl⟩
  · rw [Store.modifyProject, OrdDict.keys_modify]
    exact hq
  · simp only [Store.projectStatus, Store.modifyProject, OrdDict.get?_modify]
    split
    · rename_i hqp
      subst hqp
      cases s.projects.get? q <;> simp [hf]
    · rfl

theorem modifyPayload {v : UUID} {f : PlanVersionRow → PlanVersionRow}
    (hf : ∀ pv, (f pv).projectId = pv.projectId ∧ (f pv).status = pv.status) : Aside s (s.modifyVersion v f) := by
  refine ⟨OrdDict.keys_modify _ _ _, fun w => ?_, fun p hp => ⟨hp, rfl⟩, rfl, le_rfl⟩
  simp only [Store.standing, Store.modifyVersion, OrdDict.get?_modify]
  split
  · rename_i hwv
    subst hwv
    cases s.planVersions.get? w <;> simp [hf]
  · rfl

end Aside

theorem Abandoned.aside {s s' : Store} (h : Abandoned s s') : Aside s s' := by
  obtain ⟨n, rfl | ⟨row, -, hnew, rfl⟩⟩ := h
  · exact .of_eq rfl rfl rfl (Nat.le_add_right _ _)
  · have hdrawn : Aside s (s.drawn n) := .of_eq rfl rfl rfl (Nat.le_add_right _ _)
    exact hdrawn.trans (@Aside.putProject (s.drawn n) s.nextId hnew row)

/-- `I` has nothing to do with most tables: what the calls below write keeps it. -/
structure Indifferent (I : Store → Prop) : Prop where
  drawn : ∀ {s} n, I s → I (s.drawn n)
  putAudit : ∀ {s} row, I s → I (s.putAudit row)
  putProject : ∀ {s p} row, p ∉ s.projects.keys → I s → I (s.putProject p row)
  putAssignment : ∀ {s} taskId personId hours, I s → I (s.putAssignment taskId personId hours)
  setAssignee : ∀ {s} taskId personId hours, I s → I (s.setAssignee taskId personId hours)
  putOverride : ∀ {s} personId day row, I s → I (s.putOverride personId day row)
  setStatus : ∀ {s} taskId status, I s → I (s.modifyTask taskId ({ · with status := status }))
  editPayload : ∀ {s} v (f : Payload → Payload), I s → I (s.modifyVersion v fun pv => { pv with payload := f pv.payload })

theorem Aside.indifferent (s₀ : Store) : Indifferent (Aside s₀) where
  drawn _ h := h.trans (.of_eq rfl rfl rfl (Nat.le_add_right _ _))
  putAudit _ h := h.trans (.of_eq rfl rfl rfl le_rfl)
  putProject row hnew h := h.trans (.putProject hnew row)
  putAssignment _ _ _ h := h.trans (.of_eq rfl rfl rfl le_rfl)
  setAssignee _ _ _ h := h.trans (.of_eq rfl rfl rfl le_rfl)
  putOverride _ _ _ h := h.trans (.of_eq rfl rfl rfl le_rfl)
  setStatus _ _ h := h.trans (.of_eq rfl rfl rfl le_rfl)
  editPayload _ _ h := h.trans (.modifyPayload fun _ => ⟨rfl, rfl⟩)

namespace Indifferent

variable {I : Store → Prop} (hI : Indifferent I)

include hI

theorem uuid4 : uuid4.Keeps I := Keeps.call fun _ => hI.drawn 1

theorem addAudit {actorId : Option UUID} {action entityType : String} {entityId : Option UUID}
    {payload : Option (List (String × AuditValue))} :
    (Repo.addAudit actorId action entityType entityId payload).Keeps I :=
  Keeps.guarded fun _ _ => hI.putAudit _

theorem createProject {title templateCode : String} {deadline briefReturnDate : Option Date}
    {actorId : Option UUID} {projectId : UUID} :
    (Repo.createProject title templateCode deadline briefReturnDate actorId projectId).Keeps I :=
  Keeps.guarded fun _ hc => hI.putProject _ hc.2

theorem resolveProject (U : CharTables) (name : Option String) (actor : Option PersonRecord) :
    (resolveProject U name actor).Keeps I := by
  refine (Keeps.read _).bind fun found => ?_
  cases found with
  | some existing => exact Keeps.pure _
  | none => exact hI.uuid4.bind fun _ => hI.createProject

theorem assignTask {taskId personId : UUID} {hours : Int} : (Repo.assignTask taskId personId hours).Keeps I :=
  Keeps.guarded fun _ _ => hI.putAssignment _ _ _

theorem assignNames (taskId : UUID) (duration : Int) (names : List String) :
    (assignNames taskId duration names).Keeps I := by
  induction names with
  | nil => exact Keeps.pure _
  | cons name rest ih =>
    refine (Keeps.read _).bind fun found => ?_
    cases found with
    | none => exact ih
    | some person => exact hI.assignTask.bind fun _ => ih.bind fun _ => Keeps.pure _

theorem captureTask (hput : ∀ {s id} row, id ∉ s.tasks.keys → I s → I (s.putTask id row)) (U : CharTables)
    (sink : Option TaskSink) (intent : CaptureTaskIntent) (actor : Option PersonRecord) :
    (captureTask U sink intent actor).Keeps I := by
  refine (hI.resolveProject U _ actor).bind fun project => (Keeps.read _).bind fun tasks => ?_
  split
  · exact Keeps.pure _
  · have hcreate : ∀ duration, (Repo.createTask project.id intent.taskTitle duration intent.deadline
        intent.timeStart intent.requiredSkills).Keeps I :=
      fun _ => hI.uuid4.bind fun _ => Keeps.guarded fun _ hc => hput _ hc.2
    exact (hcreate _).bind fun task => (hI.assignNames _ _ _).bind fun names => hI.addAudit.bind fun _ => Keeps.pure _

theorem editInPlan {taskId : UUID} {f : Assignment → Assignment} : (Repo.editInPlan taskId f).Keeps I := by
  refine Keeps.call fun s hs => ?_
  split
  · exact hs
  · exact hI.editPayload _ (·.editTask taskId f) hs

theorem setTaskAssignee {taskId personId : UUID} {hours : Int} :
    (Repo.setTaskAssignee taskId personId hours).Keeps I := by
  refine Keeps.call fun s hs => ?_
  split
  · exact hs
  · split
    · exact hI.setAssignee _ _ _ hs
    · exact hs

theorem buildAssignReply (U : CharTables) (taskRef personName : String) (actorId : Option UUID) :
    (buildAssignReply U taskRef personName actorId).Keeps I := by
  refine (Keeps.read _).bind fun found => ?_
  cases found with
  | none => exact Keeps.pure _
  | some person =>
    refine (Keeps.read _).bind fun tasks => ?_
    split
    · exact Keeps.pure _
    · refine hI.setTaskAssignee.bind fun moved => ?_
      split
      · exact hI.editInPlan.bind fun _ => hI.addAudit.bind fun _ => Keeps.pure _
      · exact Keeps.pure _
    · exact Keeps.pure _

theorem upsertDays (personId : UUID) (capacityH : Int) (n : Nat) (day : Date) :
    (upsertDays personId capacityH n day).Keeps I := by
  induction n generalizing day with
  | zero => exact Keeps.pure _
  | succ n ih =>
    have hupsert : (Repo.upsertDayOverride personId day capacityH (some "vacation")).Keeps I :=
      Keeps.guarded fun _ _ => hI.putOverride _ _ _
    exact hupsert.bind fun _ => ih (day + 1)

theorem setVacation (intent : VacationIntent) (actorId : Option UUID) (isAdmin : Bool) :
    (setVacation intent actorId isAdmin).Keeps I := by
  unfold Planner.setVacation
  split
  · exact Keeps.raise _
  · refine (Keeps.ofExcept _).bind fun _ => (Keeps.read _).bind fun found => ?_
    cases found with
    | none => exact Keeps.raise _
    | some person => exact (hI.upsertDays _ _ _ _).bind fun _ => hI.addAudit.bind fun _ => Keeps.pure _

theorem markTaskDone (taskId : UUID) (actorId : Option UUID) (isAdmin : Bool) (status : String) :
    (markTaskDone taskId actorId isAdmin status).Keeps I := by
  unfold Planner.markTaskDone
  split
  · exact Keeps.raise _
  · split
    · exact Keeps.raise _
    · have hset : ∀ st, (Repo.setTaskStatus taskId st).Keeps I := fun st => Keeps.call fun _ => hI.setStatus _ st
      exact (hset _).bind fun _ => hI.addAudit

end Indifferent

theorem captureTask_aside {s₀ : Store} (U : CharTables) (sink : Option TaskSink) (intent : CaptureTaskIntent)
    (actor : Option PersonRecord) : (captureTask U sink intent actor).Keeps (Aside s₀) :=
  (Aside.indifferent s₀).captureTask (fun _ _ h => h.trans (.of_eq rfl rfl rfl le_rfl)) U sink intent actor

end Planner
