import Planner.ChatRequests
import Planner.DispatchTools

/-! What a request does to the projects, the tasks and those who have them. -/

namespace Planner

open Program

/-- What captures and the board see of a project. -/
structure ProjectLabel where
  title : String
  status : ProjectStatus
  deadline : Option Date
  deriving DecidableEq, Repr

def ProjectRow.label (row : ProjectRow) : ProjectLabel := ⟨row.title, row.status, row.deadline⟩

def Store.label (s : Store) (p : UUID) : Option ProjectLabel := (s.projects.get? p).map ProjectRow.label

/-- The projects that are there stay as they are, and a new one has the title. -/
structure AddsTitled (title : String) (s s' : Store) : Prop where
  kept : ∀ p ∈ s.projects.keys, s'.label p = s.label p
  opened : ∀ p ∉ s.projects.keys, ∀ l ∈ s'.label p, l.title = title ∧ l.status = .planning

namespace AddsTitled

variable {title : String} {s t u : Store}

theorem mem_of_label {p : UUID} {l : ProjectLabel} (h : s.label p = some l) : p ∈ s.projects.keys := by
  obtain ⟨row, hrow, -⟩ := Option.map_eq_some_iff.mp h
  exact OrdDict.mem_keys.mpr (by rw [hrow]; rfl)

theorem label_of_mem {p : UUID} (h : p ∈ s.projects.keys) : ∃ l, s.label p = some l := by
  obtain ⟨row, hrow⟩ := Option.isSome_iff_exists.mp (OrdDict.mem_keys.mp h)
  exact ⟨row.label, by rw [Store.label, hrow]; rfl⟩

theorem label_none {p : UUID} (h : p ∉ s.projects.keys) : s.label p = none := by
  rw [Store.label, OrdDict.get?_eq_none_iff.mpr h]
  rfl

theorem of_label (h : ∀ p, t.label p = s.label p) : AddsTitled title s t :=
  ⟨fun p _ => h p, fun p hp l hl => by rw [h p, label_none hp] at hl; cases hl⟩

theorem refl (title : String) (s : Store) : AddsTitled title s s := of_label fun _ => rfl

theorem relabel (h : AddsTitled title s t) (hl : ∀ p, u.label p = t.label p) : AddsTitled title s u :=
  ⟨fun p hp => (hl p).trans (h.kept p hp), fun p hp l hl' => h.opened p hp l (hl p ▸ hl')⟩

theorem of_projects (h : AddsTitled title s t) (hp : u.projects = t.projects) : AddsTitled title s u :=
  h.relabel fun p => by rw [Store.label, hp, Store.label]

theorem mem_kept (h : AddsTitled title s t) {p : UUID} (hp : p ∈ s.projects.keys) : p ∈ t.projects.keys := by
  obtain ⟨l, hl⟩ := label_of_mem hp
  exact mem_of_label ((h.kept p hp).trans hl)

theorem putProject (h : AddsTitled title s t) {p : UUID} {row : ProjectRow} (hnew : p ∉ t.projects.keys)
    (htitle : row.title = title) (hstatus : row.status = .planning) : AddsTitled title s (t.putProject p row) := by
  have hlabel : ∀ q, q ≠ p → (t.putProject p row).label q = t.label q := fun q hq => by
    rw [Store.label, Store.putProject, OrdDict.get?_insert_of_ne _ _ hq, Store.label]
  constructor
  · intro q hq
    rw [hlabel q fun he => hnew (he ▸ h.mem_kept hq)]
    exact h.kept q hq
  · intro q hq l hl
    by_cases hqp : q = p
    · rw [hqp, Store.label, Store.putProject, OrdDict.get?_insert_self] at hl
      obtain rfl := Option.some.inj hl
      exact ⟨htitle, hstatus⟩
    · rw [hlabel q hqp] at hl
      exact h.opened q hq l hl

theorem modifyProject (h : AddsTitled title s t) {p : UUID} {f : ProjectRow → ProjectRow} (hf : ∀ row, (f row).label = row.label) :
    AddsTitled title s (t.modifyProject p f) := by
  refine h.relabel fun q => ?_
  rw [Store.label, Store.modifyProject, OrdDict.get?_modify, Store.label]
  split
  · rename_i hqp
    rw [hqp]
    cases t.projects.get? p with
    | none => rfl
    | some row => exact congrArg some (hf row)
  · rfl

end AddsTitled

section Propose

variable {s₀ : Store} {solver : GreedySolver} {intent : AddProjectIntent} {actor : Option PersonRecord} {today : Date}
  {sink : Option ProjectSink}

theorem validProject_ok {template : ProjectTemplate} {title : String} (h : validProject intent template today = .ok title) :
    title = strip intent.title := by
  unfold validProject at h
  dsimp only at h
  split at h
  · cases h
  · split at h
    · cases h
    · split at h
      · cases h
      · exact (Except.ok.inj h).symm

theorem recordProject_opens (title : String) (actorId : Option UUID) (pid : UUID) (tasks : List Task)
    (plan : PlanResult) : (recordProject title intent actorId pid tasks plan).Keeps (AddsTitled title s₀) := by
  have hcreate : (Repo.createProject title intent.templateCode intent.deadline intent.briefReturnDate actorId pid).Keeps
      (AddsTitled title s₀) := Keeps.guarded fun _ hc h => h.putProject hc.2 rfl rfl
  have hsave : ∀ p, (Repo.saveProjectTasks p tasks plan.assignments).Keeps (AddsTitled title s₀) :=
    fun _ => Keeps.guarded fun _ _ h => h.of_projects rfl
  have hversion : ∀ p, (Repo.savePlanVersion p .proposed (serializePlan plan) actorId).Keeps (AddsTitled title s₀) :=
    fun _ => Keeps.guarded fun _ _ h => h.of_projects rfl
  have haudit : ∀ p, (Repo.addAudit actorId "add_project" "project" p (some [("title", .text title)])).Keeps
      (AddsTitled title s₀) := fun _ => Keeps.guarded fun _ _ h => h.of_projects rfl
  exact hcreate.bind fun project => (hsave _).bind fun _ => (hversion _).bind fun pv => (haudit _).bind fun _ => Keeps.pure _

theorem mirrorProject_opens {title : String} (card : SinkProject) (pid : UUID) :
    (mirrorProject sink card pid).Keeps (AddsTitled title s₀) := by
  cases sink with
  | none => exact Keeps.pure _
  | some sink =>
    have hset : ∀ page, (Repo.setProjectNotionPage pid page).Keeps (AddsTitled title s₀) :=
      fun _ => Keeps.call fun _ h => h.modifyProject fun _ => rfl
    refine (Keeps.attempt ?_).bind fun r => ?_
    · refine (Keeps.ofExcept _).bind fun page => ?_
      cases page with
      | none => exact Keeps.pure _
      | some id =>
        dsimp only
        split
        · exact Keeps.pure _
        · exact (hset id).bind fun _ => Keeps.pure _
    · cases r <;> exact Keeps.pure _

theorem addProject_opens {people : List Person} {template : ProjectTemplate} {existing : List DayAllocation}
    {overrides : List DayOverride} :
    (addProject solver intent actor people template today existing overrides sink).Keeps (AddsTitled (strip intent.title) s₀) := by
  refine Keeps.ofExcept_bind fun title htitle => ?_
  obtain rfl := validProject_ok htitle
  have hdraw : uuid4.Keeps (AddsTitled (strip intent.title) s₀) := Keeps.call fun _ h => h.of_projects rfl
  have hdraws : ∀ n, (uuid4s n).Keeps (AddsTitled (strip intent.title) s₀) := fun _ => Keeps.call fun _ h => h.of_projects rfl
  refine hdraw.bind fun pid => ((hdraws _).bind fun ids => Keeps.ofExcept _).bind fun inst => ?_
  refine (Keeps.ofExcept _).bind fun plan => (Keeps.ofExcept _).bind fun earliestEnd => ?_
  exact (recordProject_opens _ _ _ _ _).bind fun recorded =>
    (mirrorProject_opens _ _).bind fun page => Keeps.pure _

theorem buildAddProjectReply_opens :
    (buildAddProjectReply solver intent actor today sink).Keeps (AddsTitled (strip intent.title) s₀) := by
  refine (Keeps.read _).bind fun template => ?_
  cases template with
  | none => exact Keeps.pure _
  | some template =>
    refine (Keeps.read _).bind fun people => ?_
    split
    · exact Keeps.pure _
    · refine (Keeps.read _).bind fun payloads => addProject_opens.attempt.bind fun r => ?_
      split
      · exact Keeps.pure _
      · exact Keeps.pure _
      · exact Keeps.raise _

end Propose

/-- A proposed version and its project have been decided, and at most the log shows it. -/
structure Settles (v p : UUID) (st : PlanStatus) (s s' : Store) : Prop where
  standing : s.standing v = some (p, .proposed)
  eq : ∃ audit, s' = ((s.modifyVersion v ({ · with status := st })).modifyProject p
    ({ · with status := st.project })).logged audit

namespace Settles

variable {v p : UUID} {st : PlanStatus} {s s' : Store} (h : Settles v p st s s')

include h

theorem label (q : UUID) :
    s'.label q = if q = p then (s.label p).map ({ · with status := st.project }) else s.label q := by
  obtain ⟨audit, rfl⟩ := h.eq
  change ((s.projects.modify p _).get? q).map ProjectRow.label = _
  rw [OrdDict.get?_modify]
  split
  · rw [Store.label, Option.map_map, Option.map_map]
    rename_i hq
    rw [hq]
    rfl
  · rfl

theorem decided (hids : s.VersionIds) : Decided v p st s s' := by
  obtain ⟨audit, rfl⟩ := h.eq
  exact decided_of_eq hids h.standing rfl rfl rfl rfl

theorem wf (hs : s.WF) : s'.WF := by
  obtain ⟨audit, rfl⟩ := h.eq
  refine Store.WF.logged ?_ audit
  have hkeys : (s.projects.modify p ({ · with status := st.project })).keys = s.projects.keys := OrdDict.keys_modify _ _ _
  have hversions : (s.planVersions.modify v ({ · with status := st })).values.map PlanVersionRow.projectId =
      s.planVersions.values.map PlanVersionRow.projectId := OrdDict.map_values_modify _ _ fun _ => rfl
  have hpayloads : (s.planVersions.modify v ({ · with status := st })).values.map (fun pv => pv.payload.assignments) =
      s.planVersions.values.map fun pv => pv.payload.assignments := OrdDict.map_values_modify _ _ fun _ => rfl
  have hplan : ((s.modifyVersion v ({ · with status := st })).modifyProject p ({ · with status := st.project })).planAssignments =
      s.planAssignments := by
    simp only [Store.planAssignments, List.flatMap_def]
    exact congrArg List.flatten hpayloads
  refine { hs with
    project_lt := fun q hq => hs.project_lt q (hkeys ▸ hq)
    version_lt := fun w hw => hs.version_lt w (OrdDict.keys_modify s.planVersions v _ ▸ hw)
    task_project := fun row hrow => hkeys ▸ hs.task_project row hrow
    version_project := fun pv hpv => ?_
    one_version := hversions ▸ hs.one_version
    planned_task := hplan ▸ hs.planned_task
    planned_once := hplan ▸ hs.planned_once }
  have hmem := List.mem_map_of_mem (f := PlanVersionRow.projectId) hpv
  rw [show ((s.modifyVersion v ({ · with status := st })).modifyProject p ({ · with status := st.project })).planVersions.values.map
    PlanVersionRow.projectId = _ from hversions] at hmem
  obtain ⟨pw, hpw, he⟩ := List.mem_map.mp hmem
  exact hkeys ▸ he ▸ hs.version_project pw hpw

end Settles

namespace Store.WF

variable {s : Store} (hs : s.WF)

include hs

theorem putTask {t : UUID} (ht : t < s.nextId) {row : TaskRow} (hp : row.projectId ∈ s.projects.keys) : (s.putTask t row).WF :=
  have hkeys : ∀ {u}, u ∈ s.tasks.keys → u ∈ (s.putTask t row).tasks.keys := fun hu => OrdDict.mem_keys_insert.mpr (Or.inr hu)
  { hs with
    task_lt := fun u hu => (OrdDict.mem_keys_insert.mp hu).elim (fun he => he ▸ ht) (hs.task_lt u)
    task_project := fun r hr => (OrdDict.mem_values_insert hr).elim (fun he => he ▸ hp) (hs.task_project r)
    assignment_keys := fun k hk => ⟨hkeys (hs.assignment_keys k hk).1, (hs.assignment_keys k hk).2⟩
    dependency_tasks := fun k hk => ⟨hkeys (hs.dependency_tasks k hk).1, hkeys (hs.dependency_tasks k hk).2⟩
    planned_task := fun a ha => hkeys (hs.planned_task a ha) }

theorem assigned {t : UUID} (ht : t ∈ s.tasks.keys) (hours : Int) (names : List String) : (s.assigned t hours names).WF := by
  refine { hs with assignment_keys := fun k hk => ?_ }
  rcases (OrdDict.mem_keys_insertAll _ _).mp hk with hk | hk
  · obtain ⟨e, he, rfl⟩ := List.mem_map.mp hk
    obtain ⟨name, -, hfound⟩ := List.mem_filterMap.mp he
    obtain ⟨person, hperson, rfl⟩ := Option.map_eq_some_iff.mp hfound
    exact ⟨ht, Store.personByName_mem hperson⟩
  · exact hs.assignment_keys k hk

theorem filed {home : UUID × String} (hhome : home.1 ∈ s.projects.keys) (intent : CaptureTaskIntent) (actorId : Option UUID) :
    (s.filed home intent actorId).WF := by
  have htask : ((s.drawn 1).putTask s.nextId (intent.row home.1)).WF := (hs.drawn 1).putTask (Nat.lt_succ_self _) hhome
  have hthere : s.nextId ∈ ((s.drawn 1).putTask s.nextId (intent.row home.1)).tasks.keys :=
    OrdDict.mem_keys_insert.mpr (Or.inl rfl)
  exact (htask.assigned hthere intent.hours intent.assigneeNames).logged _

end Store.WF

section Requests

variable {U : CharTables} {s : Store}

theorem confirm_effect (hids : s.VersionIds) (sink : Option TaskSink) (v : UUID) {actor : Option PersonRecord}
    (hknown : s.knows (actor.map PersonRecord.id)) :
    (Request.confirm sink v actor).perform U s = s ∨ ∃ p, Settles v p .committed s ((Request.confirm sink v actor).perform U s) := by
  by_cases h : s.IsProposed v
  · obtain ⟨p, hp⟩ := Store.isProposed_iff.mp h
    obtain ⟨result, s', hrun, -⟩ := confirmPlan_run_of_proposed sink hids hknown hp
    refine Or.inr ⟨p, hp, ?_⟩
    rcases confirmPlan_ends (@Ends.run _ _ _ (fun _ => False) (confirmPlan sink v actor) s) with
      ⟨-, e, he⟩ | ⟨pv, hv, -, ⟨-, e, he⟩ | ⟨-, e, he⟩ | ⟨hs, -⟩⟩
    · rw [hrun] at he
      cases he
    · rw [hrun] at he
      cases he
    · rw [hrun] at he
      cases he
    · obtain ⟨pw, hw, rfl, -⟩ := Store.standing_eq_some.mp hp
      obtain rfl := Option.some.inj (hv.symm.trans hw)
      exact ⟨_, hs⟩
  · obtain ⟨e, -, hrun⟩ := confirmPlan_run_of_not_proposed sink actor h
    exact Or.inl (congrArg Prod.snd hrun)

/-- A version is retired iff another has replaced it and it is still proposed. -/
theorem retire_effect (old : Option UUID) (new : UUID) :
    (∀ v ∈ old, v ≠ new → ¬ s.IsProposed v) ∧ (Request.retire old new).perform U s = s ∨
      ∃ v p, old = some v ∧ v ≠ new ∧ Settles v p .superseded s ((Request.retire old new).perform U s) := by
  cases old with
  | none => exact Or.inl ⟨fun _ h => (nomatch h), rfl⟩
  | some v =>
    by_cases hnew : v = new
    · refine Or.inl ⟨fun w hw hne => absurd ((Option.some.inj hw).symm.trans hnew) hne, ?_⟩
      rw [Request.perform, retireReplaced, if_pos hnew]
      rfl
    by_cases h : s.IsProposed v
    · obtain ⟨p, hp⟩ := Store.isProposed_iff.mp h
      obtain ⟨pv, hv, rfl, hst⟩ := Store.standing_eq_some.mp hp
      refine Or.inr ⟨v, pv.projectId, rfl, hnew, hp, s.audit, ?_⟩
      rw [Request.perform, retireReplaced, if_neg hnew]
      simp only [retirePlan, Repo.getPlanVersion, Repo.transitionPlanStatus, Repo.setProjectStatus, run_bind, run_read,
        run_call, hv, Option.map_some, Option.any_some, hst, decide_true, if_true]
      rfl
    · refine Or.inl ⟨fun w hw _ => Option.some.inj hw ▸ h, ?_⟩
      rw [Request.perform, retireReplaced, if_neg hnew, retirePlan_run_of_not_proposed h]

theorem propose_effect (hids : s.VersionIds) (solver : GreedySolver) (intent : AddProjectIntent) (actor : Option PersonRecord)
    (today : Date) (sink : Option ProjectSink) :
    Aside s ((Request.propose solver intent actor today sink).perform U s) ∨
      ∃ v p, Added v p s ((Request.propose solver intent actor today sink).perform U s) := by
  rcases buildAddProjectReply_cases (Prod.mk.eta (p := (buildAddProjectReply solver intent actor today sink).run s)).symm with
    ⟨-, h⟩ | ⟨result, template, -, -, -, h⟩
  · exact Or.inl h.aside
  · exact Or.inr ⟨_, _, h.added hids⟩

/-- A capture finds its task, or files it in a project that is there by then. -/
theorem capture_effect (hs : s.TaskKeys) (sink : Option TaskSink) (intent : CaptureTaskIntent) {actor : Option PersonRecord}
    (hknown : s.knows (actor.map PersonRecord.id)) :
    (Request.capture sink intent actor).perform U s = s ∨ (Request.capture sink intent actor).perform U s =
      (s.housed U intent.projectName (actor.map PersonRecord.id)).filed (s.homeOf U intent.projectName) intent
        (actor.map PersonRecord.id) := by
  rw [Request.perform, captureTask_run hs hknown]
  split
  · exact Or.inl rfl
  · exact Or.inr rfl

/-- Only when nothing has the title a project is made. -/
theorem capture_opens (hs : s.TaskKeys) (sink : Option TaskSink) (intent : CaptureTaskIntent) {actor : Option PersonRecord}
    (hknown : s.knows (actor.map PersonRecord.id)) :
    AddsTitled (captureTarget intent.projectName) s ((Request.capture sink intent actor).perform U s) := by
  rcases @capture_effect U s hs sink intent actor hknown with he | he
  · rw [he]
    exact AddsTitled.refl _ s
  · rw [he]
    have hhoused : AddsTitled (captureTarget intent.projectName) s (s.housed U intent.projectName (actor.map PersonRecord.id)) := by
      unfold Store.housed
      split
      · exact AddsTitled.refl _ s
      · have hdrawn := (AddsTitled.refl (captureTarget intent.projectName) s).of_projects (u := s.drawn 1) rfl
        generalize captureTarget intent.projectName = title at hdrawn ⊢
        exact hdrawn.putProject hs.project_new rfl rfl
    generalize s.housed U intent.projectName (actor.map PersonRecord.id) = house at hhoused ⊢
    exact hhoused.of_projects rfl

theorem capture_wf (hs : s.WF) (sink : Option TaskSink) (intent : CaptureTaskIntent) {actor : Option PersonRecord}
    (hknown : s.knows (actor.map PersonRecord.id)) : ((Request.capture sink intent actor).perform U s).WF := by
  rcases @capture_effect U s hs.taskKeys sink intent actor hknown with he | he
  · rw [he]
    exact hs
  · rw [he]
    have hhoused : (s.housed U intent.projectName (actor.map PersonRecord.id)).WF := by
      unfold Store.housed
      split
      · exact hs
      · exact (hs.drawn 1).putProject (Nat.lt_succ_self _) _
    exact hhoused.filed (Store.homeOf_mem _ _) intent _

theorem propose_wf (hs : s.WF) (solver : GreedySolver) (intent : AddProjectIntent) (actor : Option PersonRecord)
    (today : Date) (sink : Option ProjectSink) : ((Request.propose solver intent actor today sink).perform U s).WF := by
  rcases buildAddProjectReply_cases (Prod.mk.eta (p := (buildAddProjectReply solver intent actor today sink).run s)).symm with
    ⟨-, h⟩ | ⟨result, template, -, -, -, h⟩
  · exact h.wf hs
  · exact h.wf hs

/-- What an assignment can do: the one task it means goes to the one person it names. -/
theorem assign_effect (taskRef personName : String) {actorId : Option UUID} (hknown : s.knows actorId) :
    (¬ s.Assigns U taskRef personName ∧ (Request.assign taskRef personName actorId).perform U s = s) ∨
      ∃ person task audit, s.personByName personName = some person ∧ matchTasks U taskRef s.tasksWithMeta = [task] ∧
        task.1 ∈ s.tasks.keys ∧
        (Request.assign taskRef personName actorId).perform U s = (s.reassigned task.1 person.id).logged audit := by
  rcases @buildAssignReply_run U s actorId hknown taskRef personName with ⟨hno, text, hrun⟩ |
    ⟨person, task, text, hperson, hmatch, htask, hrun⟩
  · exact Or.inl ⟨hno, congrArg Prod.snd hrun⟩
  · exact Or.inr ⟨person, task, _, hperson, hmatch, htask, congrArg Prod.snd hrun⟩

theorem assign_label (taskRef personName : String) {actorId : Option UUID} (hknown : s.knows actorId) (p : UUID) :
    ((Request.assign taskRef personName actorId).perform U s).label p = s.label p := by
  rcases @assign_effect U s taskRef personName actorId hknown with ⟨-, he⟩ | ⟨person, task, audit, -, -, -, he⟩
  · rw [he]
  · rw [he]
    change ((s.setAssignee _ _ _).editInPlan _ _).label p = _
    rw [Store.label, Store.projects_editInPlan]
    rfl

theorem assign_wf (hs : s.WF) (taskRef personName : String) {actorId : Option UUID} (hknown : s.knows actorId) :
    ((Request.assign taskRef personName actorId).perform U s).WF := by
  rcases @assign_effect U s taskRef personName actorId hknown with ⟨-, he⟩ | ⟨person, task, audit, hperson, -, htask, he⟩
  · rw [he]
    exact hs
  · rw [he]
    exact ((hs.setAssignee htask (Store.personByName_mem hperson) 8).editInPlan _ fun _ => by rfl).logged audit

theorem perform_people (hs : s.WF) (r : Request) (hknown : s.knows r.actorId) : (r.perform U s).people = s.people := by
  cases r with
  | propose solver intent actor today sink =>
    rcases @propose_effect U s hs.versionIds solver intent actor today sink with h | ⟨v, p, h⟩
    · exact h.people
    · exact h.people
  | retire old new =>
    rcases @retire_effect U s old new with ⟨-, he⟩ | ⟨v, p, -, -, h⟩
    · rw [he]
    · exact (h.decided hs.versionIds).people
  | confirm sink v actor =>
    rcases @confirm_effect U s hs.versionIds sink v actor hknown with he | ⟨p, h⟩
    · rw [he]
    · exact (h.decided hs.versionIds).people
  | capture sink intent actor => exact ((captureTask_aside U sink intent actor).run (Aside.refl s)).people
  | assign taskRef personName actorId =>
    exact (((Aside.indifferent s).buildAssignReply U taskRef personName actorId).run (Aside.refl s)).people

end Requests

/-- Well-formed tables of which no proposal is of a cancelled project. -/
structure Store.Regular (s : Store) : Prop where
  wf : s.WF
  live : ∀ v p, s.standing v = some (p, .proposed) → s.projectStatus p ≠ some .cancelled

namespace Store.Regular

variable {U : CharTables} {s s' : Store}

theorem projectStatus_eq (s : Store) (p : UUID) : s.projectStatus p = (s.label p).map ProjectLabel.status := by
  rw [Store.projectStatus, Store.label, Option.map_map]
  rfl

theorem live_of_aside (hs : s.Regular) (h : Aside s s') (v p : UUID) (hv : s'.standing v = some (p, .proposed)) :
    s'.projectStatus p ≠ some .cancelled := by
  rw [h.standing] at hv
  rw [(h.projects p (hs.wf.versionIds.project v p _ hv)).2]
  exact hs.live v p hv

theorem live_of_added (hs : s.Regular) {w q : UUID} (h : Added w q s s') {title : String} (hopens : AddsTitled title s s')
    (v p : UUID) (hv : s'.standing v = some (p, .proposed)) : s'.projectStatus p ≠ some .cancelled := by
  by_cases hvw : v = w
  · rw [hvw, h.standing] at hv
    obtain ⟨rfl, -⟩ := Prod.mk.inj (Option.some.inj hv)
    obtain ⟨l, hl⟩ := AddsTitled.label_of_mem h.project
    rw [projectStatus_eq, hl, Option.map_some, (hopens.opened _ h.project_new l hl).2]
    exact nofun
  · rw [h.standing_of_ne v hvw] at hv
    rw [(h.projects p (hs.wf.versionIds.project v p _ hv)).2]
    exact hs.live v p hv

theorem settles (hs : s.Regular) {w q : UUID} {st : PlanStatus} (hst : st ≠ .proposed) (h : Settles w q st s s') :
    s'.Regular := by
  have hids := hs.wf.versionIds
  have hd := h.decided hids
  refine ⟨h.wf hs.wf, fun v p hv => ?_⟩
  by_cases hvw : v = w
  · rw [hvw, hd.standing] at hv
    exact absurd (Prod.mk.inj (Option.some.inj hv)).2 hst
  · rw [hd.standing_of_ne v hvw] at hv
    have hpq : p ≠ q := fun he => hvw (hids.distinct v w p _ _ hv (he ▸ h.standing))
    rw [hd.status_of_ne p hpq]
    exact hs.live v p hv

theorem perform (hs : s.Regular) (r : Request) (hknown : s.knows r.actorId) : (r.perform U s).Regular := by
  cases r with
  | propose solver intent actor today sink =>
    have hopens : AddsTitled (strip intent.title) s ((Request.propose solver intent actor today sink).perform U s) :=
      buildAddProjectReply_opens.run (AddsTitled.refl _ s)
    refine ⟨propose_wf hs.wf solver intent actor today sink, ?_⟩
    rcases @propose_effect U s hs.wf.versionIds solver intent actor today sink with h | ⟨v, p, h⟩
    · exact hs.live_of_aside h
    · exact hs.live_of_added h hopens
  | retire old new =>
    rcases @retire_effect U s old new with ⟨-, he⟩ | ⟨v, p, -, -, h⟩
    · rw [he]
      exact hs
    · exact hs.settles (by decide) h
  | confirm sink v actor =>
    rcases @confirm_effect U s hs.wf.versionIds sink v actor hknown with he | ⟨p, h⟩
    · rw [he]
      exact hs
    · exact hs.settles (by decide) h
  | capture sink intent actor =>
    have haside : Aside s ((Request.capture sink intent actor).perform U s) :=
      (captureTask_aside U sink intent actor).run (Aside.refl s)
    exact ⟨capture_wf hs.wf sink intent hknown, hs.live_of_aside haside⟩
  | assign taskRef personName actorId =>
    have haside : Aside s ((Request.assign taskRef personName actorId).perform U s) :=
      ((Aside.indifferent s).buildAssignReply U _ _ _).run (Aside.refl s)
    exact ⟨assign_wf hs.wf taskRef personName hknown, hs.live_of_aside haside⟩

/-- The people stay known, and so the whole run keeps the tables regular. -/
theorem after (hs : s.Regular) {reqs : List Request} (hknown : ∀ r ∈ reqs, s.knows r.actorId) :
    (Trace.after (Request.perform U) s reqs).Regular ∧ (Trace.after (Request.perform U) s reqs).people = s.people := by
  induction reqs using List.reverseRecOn with
  | nil => exact ⟨hs, rfl⟩
  | append_singleton reqs r ih =>
    obtain ⟨hregular, hpeople⟩ := ih fun q hq => hknown q (List.mem_append_left _ hq)
    have hknows : (Trace.after (Request.perform U) s reqs).knows r.actorId :=
      fun p hp => hpeople ▸ hknown r (List.mem_append_right _ (List.mem_singleton_self r)) p hp
    rw [Trace.after_snoc]
    exact ⟨hregular.perform r hknows, (perform_people hregular.wf r hknows).trans hpeople⟩

/-- What a request of a known person keeps under its condition only, a run keeps
iff every request of it meets its condition. -/
theorem always_iff (hs : s.Regular) {P : Store → Prop} {C : Store → Request → Prop} (h : P s) {reqs : List Request}
    (hknown : ∀ r ∈ reqs, s.knows r.actorId)
    (hstep : ∀ t r, t.Regular → t.knows r.actorId → P t → (P (r.perform U t) ↔ C t r)) :
    (∀ pre, pre <+: reqs → P (Trace.after (Request.perform U) s pre)) ↔
      ∀ pre r, pre ++ [r] <+: reqs → C (Trace.after (Request.perform U) s pre) r := by
  refine Trace.always_iff_of_forall (D := fun r => s.knows r.actorId) (I := fun pre => ∀ r ∈ pre, s.knows r.actorId)
    hknown (by simp) h (fun pre r hr hpre q hq => ?_) fun pre r hr hpre hP => ?_
  · rcases List.mem_append.mp hq with hq | hq
    · exact hpre q hq
    · exact List.mem_singleton.mp hq ▸ hr
  · obtain ⟨hregular, hpeople⟩ := hs.after (U := U) hpre
    rw [Trace.after_snoc]
    exact hstep _ r hregular (fun p hp => hpeople ▸ hr p hp) hP

end Store.Regular

end Planner
