import Planner.Capture

/-! A capture that runs on its own: the project it names is found or made, and
then its task is a duplicate, or it is filed there with the people found. -/

namespace Planner

open Program

/-- The title a capture looks its project up by. -/
def captureTarget (name : Option String) : String :=
  if strip (name.getD "") = "" then inboxProject else strip (name.getD "")

def CaptureTaskIntent.hours (intent : CaptureTaskIntent) : Int :=
  match intent.estHours with
  | some est => if 0 < est then est else captureHours
  | none => captureHours

/-- The card on the board. -/
def CaptureTaskIntent.card (intent : CaptureTaskIntent) (names : List String) (project : String) : SinkTask :=
  ⟨intent.taskTitle, names, some project, intent.deadline, intent.timeStart⟩

def CaptureTaskIntent.row (intent : CaptureTaskIntent) (projectId : UUID) : TaskRow where
  projectId := projectId
  name := intent.taskTitle
  durationHours := intent.hours
  endDate := intent.deadline
  timeStart := intent.timeStart
  requiredSkills := intent.requiredSkills

namespace Store

/-- Ids are drawn only once, and no task or row is without what it refers to. -/
structure TaskKeys (s : Store) : Prop where
  project_lt : ∀ p ∈ s.projects.keys, p < s.nextId
  task_lt : ∀ t ∈ s.tasks.keys, t < s.nextId
  task_project : ∀ row ∈ s.tasks.values, row.projectId ∈ s.projects.keys
  assignment_task : ∀ k ∈ s.assignments.keys, k.1 ∈ s.tasks.keys

theorem WF.taskKeys {s : Store} (h : s.WF) : s.TaskKeys :=
  ⟨h.project_lt, h.task_lt, h.task_project, fun k hk => (h.assignment_keys k hk).1⟩

section Tables

variable (U : CharTables) (s : Store)

/-- The first project of that title. -/
def projectByTitle (title : String) : Option (UUID × ProjectRow) :=
  s.projects.entries.find? fun e => U.lower e.2.title.toList = U.lower title.toList

def projectTasks (projectId : UUID) : List TaskRecord :=
  ((s.tasks.entries.filter fun e => e.2.projectId = projectId).insertionSort fun a b => a.2.name ≤ b.2.name).map
    fun e => ⟨e.1, e.2.name, e.2.status, e.2.endDate, e.2.durationHours⟩

def stubRow (title : String) (actorId : Option UUID) : ProjectRow where
  title := title
  templateId := s.templateIdOf ""
  deadline := none
  briefReturnDate := none
  createdBy := actorId

/-- The project of a capture: its id and its title. -/
def homeOf (name : Option String) : UUID × String :=
  match s.projectByTitle U (captureTarget name) with
  | some e => (e.1, e.2.title)
  | none => (s.nextId, captureTarget name)

/-- The tables once the project is there. -/
def housed (name : Option String) (actorId : Option UUID) : Store :=
  match s.projectByTitle U (captureTarget name) with
  | some _ => s
  | none => (s.drawn 1).putProject s.nextId (s.stubRow (captureTarget name) actorId)

/-- Those of the names that are found. -/
def namesFound (names : List String) : List String :=
  names.filterMap fun name => (s.personByName name).map PersonRecord.name

def rowsFound (taskId : UUID) (hours : Int) (names : List String) : List ((UUID × UUID) × Int) :=
  names.filterMap fun name => (s.personByName name).map fun person => ((taskId, person.id), hours)

def assigned (taskId : UUID) (hours : Int) (names : List String) : Store :=
  { s with assignments := s.assignments.insertAll (s.rowsFound taskId hours names) }

def captureAudit (intent : CaptureTaskIntent) (title : String) (actorId : Option UUID) : AuditRow :=
  ⟨actorId, "capture_task", "task", some s.nextId, some [("title", .text intent.taskTitle), ("project", .text title),
    ("assignees", .texts (s.namesFound intent.assigneeNames))]⟩

/-- The tables once the task is there, too. -/
def filed (home : UUID × String) (intent : CaptureTaskIntent) (actorId : Option UUID) : Store :=
  (((s.drawn 1).putTask s.nextId (intent.row home.1)).assigned s.nextId intent.hours intent.assigneeNames).putAudit
    (s.captureAudit intent home.2 actorId)

def filedResult (sink : Option TaskSink) (home : UUID × String) (intent : CaptureTaskIntent) : CaptureResult where
  taskTitle := intent.taskTitle
  projectTitle := home.2
  assigneeNames := s.namesFound intent.assigneeNames
  deadlineIso := intent.deadline.map fun d => d.isoformat ++ match intent.timeStart with
    | some t => " " ++ t.text
    | none => ""
  notionUrl := pushCapture sink (intent.card (s.namesFound intent.assigneeNames) home.2)
  taskId := s.nextId
  durationHours := intent.hours

def duplicateResult (home : UUID × String) (task : TaskRecord) : CaptureResult :=
  ⟨task.name, home.2, [], task.endDate.map Date.isoformat, none, task.id, task.durationHours, true⟩

end Tables

section Runs

variable {U : CharTables} {s : Store}

theorem personByName_mem {name : String} {person : PersonRecord} (h : s.personByName name = some person) :
    person.id ∈ s.people.keys := by
  obtain ⟨found, -, hget⟩ := Option.bind_eq_some_iff.mp h
  obtain ⟨e, he, heq⟩ := List.mem_map.mp (OrdDict.mem_of_get?_ofList hget)
  obtain ⟨-, rfl⟩ := Prod.mk.inj heq
  exact List.mem_map_of_mem he

theorem projectByTitle_mem {title : String} {e : UUID × ProjectRow} (h : s.projectByTitle U title = some e) :
    e.1 ∈ s.projects.keys ∧ U.lower e.2.title.toList = U.lower title.toList :=
  ⟨List.mem_map_of_mem (List.mem_of_find?_eq_some h), by simpa using List.find?_some (show List.find? _ _ = _ from h)⟩

theorem mem_projectTasks {projectId : UUID} {t : TaskRecord} :
    t ∈ s.projectTasks projectId ↔ ∃ row, s.tasks.get? t.id = some row ∧ row.projectId = projectId ∧
      t = ⟨t.id, row.name, row.status, row.endDate, row.durationHours⟩ := by
  simp only [projectTasks, List.mem_map, List.mem_insertionSort, List.mem_filter, decide_eq_true_eq]
  constructor
  · rintro ⟨e, ⟨he, hp⟩, rfl⟩
    exact ⟨e.2, OrdDict.get?_eq_some_iff.mpr he, hp, rfl⟩
  · rintro ⟨row, hrow, hp, ht⟩
    exact ⟨(t.id, row), ⟨OrdDict.get?_eq_some_iff.mp hrow, hp⟩, ht.symm⟩

namespace TaskKeys

variable (hs : s.TaskKeys)

include hs

theorem project_new : s.nextId ∉ s.projects.keys := fun h => lt_irrefl _ (hs.project_lt _ h)

theorem task_new : s.nextId ∉ s.tasks.keys := fun h => lt_irrefl _ (hs.task_lt _ h)

theorem projectTasks_new : s.projectTasks s.nextId = [] := by
  rw [List.eq_nil_iff_forall_not_mem]
  intro t ht
  obtain ⟨row, hrow, hp, -⟩ := mem_projectTasks.mp ht
  exact hs.project_new (hp ▸ hs.task_project row (OrdDict.mem_values.mpr ⟨_, hrow⟩))

theorem drawn (n : Nat) : (s.drawn n).TaskKeys where
  project_lt p hp := (hs.project_lt p hp).trans_le (Nat.le_add_right _ _)
  task_lt t ht := (hs.task_lt t ht).trans_le (Nat.le_add_right _ _)
  task_project := hs.task_project
  assignment_task := hs.assignment_task

theorem putProject {p : UUID} (hp : p < s.nextId) (row : ProjectRow) : (s.putProject p row).TaskKeys where
  project_lt q hq := (OrdDict.mem_keys_insert.mp hq).elim (fun he => he ▸ hp) (hs.project_lt q)
  task_lt := hs.task_lt
  task_project r hr := OrdDict.mem_keys_insert.mpr (Or.inr (hs.task_project r hr))
  assignment_task := hs.assignment_task

theorem putTask {t : UUID} (ht : t < s.nextId) {row : TaskRow} (hp : row.projectId ∈ s.projects.keys) :
    (s.putTask t row).TaskKeys where
  project_lt := hs.project_lt
  task_lt u hu := (OrdDict.mem_keys_insert.mp hu).elim (fun he => he ▸ ht) (hs.task_lt u)
  task_project r hr := (OrdDict.mem_values_insert hr).elim (fun he => he ▸ hp) (hs.task_project r)
  assignment_task k hk := OrdDict.mem_keys_insert.mpr (Or.inr (hs.assignment_task k hk))

theorem assigned {t : UUID} (ht : t ∈ s.tasks.keys) (hours : Int) (names : List String) :
    (s.assigned t hours names).TaskKeys where
  project_lt := hs.project_lt
  task_lt := hs.task_lt
  task_project := hs.task_project
  assignment_task k hk := by
    rcases (OrdDict.mem_keys_insertAll _ _).mp hk with hk | hk
    · obtain ⟨e, he, rfl⟩ := List.mem_map.mp hk
      obtain ⟨name, -, hfound⟩ := List.mem_filterMap.mp he
      obtain ⟨person, -, rfl⟩ := Option.map_eq_some_iff.mp hfound
      exact ht
    · exact hs.assignment_task k hk

theorem housed (U : CharTables) (name : Option String) (actorId : Option UUID) : (s.housed U name actorId).TaskKeys := by
  unfold Store.housed
  split
  · exact hs
  · exact (hs.drawn 1).putProject (Nat.lt_succ_self _) _

/-- A project that was made for the capture has no task to be taken for it. -/
theorem housed_of_mem {name : Option String} {actorId : Option UUID} {t : TaskRecord}
    (ht : t ∈ (s.housed U name actorId).projectTasks (s.homeOf U name).1) : s.housed U name actorId = s := by
  unfold Store.housed Store.homeOf at ht
  unfold Store.housed
  split at ht
  · rfl
  · have hnone : s.projectTasks s.nextId = [] := hs.projectTasks_new
    rw [show ((s.drawn 1).putProject s.nextId _).projectTasks s.nextId = s.projectTasks s.nextId from rfl, hnone] at ht
    cases ht

end TaskKeys

theorem homeOf_mem (name : Option String) (actorId : Option UUID) :
    (s.homeOf U name).1 ∈ (s.housed U name actorId).projects.keys := by
  unfold homeOf housed
  split
  · rename_i e hfound
    exact (projectByTitle_mem hfound).1
  · exact OrdDict.mem_keys_insert.mpr (Or.inl rfl)

theorem housed_people (name : Option String) (actorId : Option UUID) :
    (s.housed U name actorId).people = s.people := by
  unfold housed
  split <;> rfl

theorem TaskKeys.filed (hs : s.TaskKeys) {home : UUID × String} (hhome : home.1 ∈ s.projects.keys)
    (intent : CaptureTaskIntent) (actorId : Option UUID) : (s.filed home intent actorId).TaskKeys := by
  have htask : ((s.drawn 1).putTask s.nextId (intent.row home.1)).TaskKeys :=
    (hs.drawn 1).putTask (Nat.lt_succ_self _) hhome
  have hassigned := htask.assigned (t := s.nextId) (OrdDict.mem_keys_insert.mpr (Or.inl rfl)) intent.hours
    intent.assigneeNames
  exact ⟨hassigned.project_lt, hassigned.task_lt, hassigned.task_project, hassigned.assignment_task⟩

end Runs

end Store

section Capture

variable {U : CharTables} {s : Store} {actor : Option PersonRecord}

theorem resolveProject_run (hnew : s.nextId ∉ s.projects.keys) (hknown : s.knows (actor.map PersonRecord.id))
    (name : Option String) : ∃ project,
      (resolveProject U name actor).run s = (.ok project, s.housed U name (actor.map PersonRecord.id)) ∧
        project.id = (s.homeOf U name).1 ∧ project.title = (s.homeOf U name).2 := by
  cases hfound : s.projectByTitle U (captureTarget name) with
  | some e =>
    rw [Store.housed, Store.homeOf, hfound]
    rw [Store.projectByTitle, captureTarget] at hfound
    simp only [resolveProject, run_bind, Repo.getProjectByTitle, run_read, hfound]
    exact ⟨_, rfl, rfl, rfl⟩
  | none =>
    have hc : (s.drawn 1).knows (actor.map PersonRecord.id) ∧ s.nextId ∉ (s.drawn 1).projects.keys := ⟨hknown, hnew⟩
    rw [Store.housed, Store.homeOf, hfound]
    rw [Store.projectByTitle, captureTarget] at hfound
    simp only [resolveProject, run_bind, Repo.getProjectByTitle, run_read, hfound, Option.map_none, uuid4, run_call,
      Repo.createProject, if_pos hc]
    exact ⟨_, rfl, rfl, rfl⟩

theorem assignNames_run {taskId : UUID} (htask : taskId ∈ s.tasks.keys) (hours : Int) (names : List String) :
    (assignNames taskId hours names).run s = (.ok (s.namesFound names), s.assigned taskId hours names) := by
  induction names generalizing s with
  | nil => rfl
  | cons name rest ih =>
    simp only [assignNames, run_bind, Repo.getPersonByName, run_read]
    cases hfound : s.personByName name with
    | none =>
      simp only [ih htask, Store.namesFound, Store.assigned, Store.rowsFound, List.filterMap_cons, hfound, Option.map_none]
    | some person =>
      have hc : taskId ∈ s.tasks.keys ∧ person.id ∈ s.people.keys := ⟨htask, Store.personByName_mem hfound⟩
      have hrest := @ih (s.putAssignment taskId person.id hours) htask
      simp only [run_bind, Repo.assignTask, run_call, if_pos hc, hrest, run_pure]
      simp only [Store.namesFound, Store.assigned, Store.rowsFound, List.filterMap_cons, hfound, Option.map_some,
        OrdDict.insertAll_cons]
      rfl

theorem captureTask_run (hs : s.TaskKeys) (hknown : s.knows (actor.map PersonRecord.id)) (sink : Option TaskSink)
    (intent : CaptureTaskIntent) :
    (captureTask U sink intent actor).run s =
      match findDuplicate U ((s.housed U intent.projectName (actor.map PersonRecord.id)).projectTasks
          (s.homeOf U intent.projectName).1) intent.taskTitle with
      | some task => (.ok (Store.duplicateResult (s.homeOf U intent.projectName) task), s)
      | none =>
        (.ok ((s.housed U intent.projectName (actor.map PersonRecord.id)).filedResult sink
            (s.homeOf U intent.projectName) intent),
          (s.housed U intent.projectName (actor.map PersonRecord.id)).filed (s.homeOf U intent.projectName) intent
            (actor.map PersonRecord.id)) := by
  obtain ⟨project, hproject, hid, htitle⟩ := @resolveProject_run U s actor hs.project_new hknown intent.projectName
  have hhome := @Store.homeOf_mem U s intent.projectName (actor.map PersonRecord.id)
  have hkeys := hs.housed U intent.projectName (actor.map PersonRecord.id)
  have hpeople := @Store.housed_people U s intent.projectName (actor.map PersonRecord.id)
  have hhoused := fun t => @Store.TaskKeys.housed_of_mem U s hs intent.projectName (actor.map PersonRecord.id) t
  rw [captureTask, run_bind_of_ok hproject]
  generalize s.housed U intent.projectName (actor.map PersonRecord.id) = h at *
  simp only [run_bind, Repo.listProjectTasks, run_read]
  change (match findDuplicate U (h.projectTasks project.id) intent.taskTitle with
    | some _ => _
    | none => _ : UseCase CaptureResult).run h = _
  rw [hid]
  cases hdup : findDuplicate U (h.projectTasks (s.homeOf U intent.projectName).1) intent.taskTitle with
  | some task =>
    have heq := hhoused task (List.mem_of_find?_eq_some hdup)
    simp only [run_pure, heq, htitle]
    rfl
  | none =>
    have hc : (s.homeOf U intent.projectName).1 ∈ (h.drawn 1).projects.keys ∧ h.nextId ∉ (h.drawn 1).tasks.keys :=
      ⟨hhome, hkeys.task_new⟩
    have htask : h.nextId ∈ ((h.drawn 1).putTask h.nextId
        (intent.row (s.homeOf U intent.projectName).1)).tasks.keys := OrdDict.mem_keys_insert.mpr (Or.inl rfl)
    have hknows : (((h.drawn 1).putTask h.nextId (intent.row (s.homeOf U intent.projectName).1)).assigned h.nextId
        intent.hours intent.assigneeNames).knows (actor.map PersonRecord.id) := by
      intro p hp
      have hmem := hknown p hp
      rw [← hpeople] at hmem
      exact hmem
    have hcreate : (Repo.createTask (s.homeOf U intent.projectName).1 intent.taskTitle intent.hours intent.deadline
        intent.timeStart intent.requiredSkills).run h = (.ok ⟨h.nextId, intent.taskTitle, .notDone, intent.deadline,
          intent.hours⟩, (h.drawn 1).putTask h.nextId (intent.row (s.homeOf U intent.projectName).1)) := by
      simp only [Repo.createTask, run_bind, uuid4, run_call, Repo.addTask, if_pos hc]
      rfl
    have hnames := assignNames_run htask intent.hours intent.assigneeNames
    change (Repo.createTask (s.homeOf U intent.projectName).1 intent.taskTitle intent.hours intent.deadline
        intent.timeStart intent.requiredSkills >>= fun _ => _).run h = _
    rw [run_bind_of_ok hcreate]
    refine (run_bind_of_ok hnames).trans ?_
    simp only [run_bind, Repo.addAudit, run_call, if_pos hknows, run_pure, htitle]
    rfl

end Capture

end Planner
