import Planner.Aside
import Planner.CaptureRuns
import Planner.Lib.CheckThenAct

/-! Captures of several people at once. Each looks for its project and for a
task of the same name, and creates later what it has not found. -/

namespace Planner

open Program

/-- What a capture does not want to have twice. -/
inductive CaptureKey
  | project (title : List Char)
  | task (projectId : UUID) (title : List Char)
  deriving DecidableEq, Repr

/-- The projects and tasks stay as they are. -/
def LeavesFiled (p : UseCase Unit) : Prop :=
  ∀ s₀ : Store, p.Keeps fun s => s.projects = s₀.projects ∧ s.tasks = s₀.tasks

/-- How far a capture has come: before each of its operations, and after the
task is there. -/
inductive CaptureStage
  | start
  | missing
  | creating (projectId : UUID)
  | housed (project : ProjectRecord)
  | absent (project : ProjectRecord)
  | adding (project : ProjectRecord) (taskId : UUID)
  | rest (p : UseCase Unit) (h : LeavesFiled p)

structure CaptureThread where
  intent : CaptureTaskIntent
  actor : Option PersonRecord
  stage : CaptureStage

/-- What the lookup by title reads of a project. -/
def foundProject (e : UUID × ProjectRow) : ProjectRecord where
  id := e.1
  title := e.2.title
  status := e.2.status
  deadline := e.2.deadline
  notionPageId := e.2.notionPageId

namespace CaptureThread

section Program

variable (U : CharTables) (sink : Option TaskSink) (t : CaptureThread)

def created (projectId : UUID) : UseCase ProjectRecord :=
  Repo.createProject (captureTarget t.intent.projectName) "" none none (t.actor.map PersonRecord.id) projectId

def added (project : ProjectRecord) (taskId : UUID) : UseCase TaskRecord :=
  Repo.addTask taskId project.id t.intent.taskTitle t.intent.hours t.intent.deadline t.intent.timeStart
    t.intent.requiredSkills

/-- The assignments, the log entry and the card. -/
def finish (project : ProjectRecord) (task : TaskRecord) : UseCase CaptureResult := do
  let names ← assignNames task.id t.intent.hours t.intent.assigneeNames
  Repo.addAudit (t.actor.map PersonRecord.id) "capture_task" "task" (some task.id)
    (some [("title", .text t.intent.taskTitle), ("project", .text project.title), ("assignees", .texts names)])
  let url := pushCapture sink (t.intent.card names project.title)
  let deadlineIso := t.intent.deadline.map fun d => d.isoformat ++ match t.intent.timeStart with
    | some time => " " ++ time.text
    | none => ""
  Pure.pure ⟨t.intent.taskTitle, project.title, names, deadlineIso, url, task.id, t.intent.hours, false⟩

def create (project : ProjectRecord) : UseCase TaskRecord := uuid4 >>= t.added project

def resolved (found : Option ProjectRecord) : UseCase ProjectRecord :=
  match found with
  | some existing => Pure.pure existing
  | none => uuid4 >>= t.created

def fileBeside (project : ProjectRecord) (tasks : List TaskRecord) : UseCase CaptureResult :=
  match findDuplicate U tasks t.intent.taskTitle with
  | some task => Pure.pure ⟨task.name, project.title, [], task.endDate.map Date.isoformat, none, task.id,
      task.durationHours, true⟩
  | none => t.create project >>= t.finish sink project

/-- From the project on. -/
def file (project : ProjectRecord) : UseCase CaptureResult :=
  Repo.listProjectTasks project.id >>= t.fileBeside U sink project

def silently (p : UseCase CaptureResult) : UseCase Unit := p >>= fun _ => Pure.pure ()

def program : UseCase Unit :=
  match t.stage with
  | .start => silently (captureTask U sink t.intent t.actor)
  | .missing => silently ((uuid4 >>= t.created) >>= t.file U sink)
  | .creating projectId => silently (t.created projectId >>= t.file U sink)
  | .housed project => silently (t.file U sink project)
  | .absent project => silently (t.create project >>= t.finish sink project)
  | .adding project taskId => silently (t.added project taskId >>= t.finish sink project)
  | .rest p _ => p

end Program

theorem captureTask_eq (U : CharTables) (sink : Option TaskSink) (t : CaptureThread) :
    captureTask U sink t.intent t.actor =
      (Repo.getProjectByTitle U (captureTarget t.intent.projectName) >>= t.resolved) >>= t.file U sink := rfl

theorem leavesFiled_raise (e : PlannerError) : LeavesFiled (.raise e) := fun _ => Keeps.raise e

theorem leavesFiled_finish (t : CaptureThread) (sink : Option TaskSink) (project : ProjectRecord) (task : TaskRecord) :
    LeavesFiled (silently (t.finish sink project task)) := by
  intro s₀
  have hassign : ∀ names : List String, (assignNames task.id t.intent.hours names).Keeps
      fun s => s.projects = s₀.projects ∧ s.tasks = s₀.tasks := by
    intro names
    induction names with
    | nil => exact Keeps.pure _
    | cons name rest ih =>
      refine (Keeps.read _).bind fun found => ?_
      cases found with
      | none => exact ih
      | some person =>
        refine Keeps.bind ?_ fun _ => ih.bind fun _ => Keeps.pure _
        exact Keeps.guarded fun _ _ h => h
  have haudit : ∀ {actorId : Option UUID} {action entityType : String} {entityId : Option UUID}
      {payload : Option (List (String × AuditValue))}, (Repo.addAudit actorId action entityType entityId payload).Keeps
        fun s => s.projects = s₀.projects ∧ s.tasks = s₀.tasks := by
    exact Keeps.guarded fun _ _ h => h
  refine Keeps.bind ?_ fun _ => Keeps.pure _
  exact (hassign t.intent.assigneeNames).bind fun names => haudit.bind fun _ => Keeps.pure _

section Next

variable (U : CharTables) (sink : Option TaskSink)

/-- One operation of the capture. -/
def next (t : CaptureThread) (s : Store) : Option (CaptureThread × Store) :=
  match t.stage with
  | .start =>
    match s.projectByTitle U (captureTarget t.intent.projectName) with
    | some e => some ({ t with stage := .housed (foundProject e) }, s)
    | none => some ({ t with stage := .missing }, s)
  | .missing => some ({ t with stage := .creating s.nextId }, s.drawn 1)
  | .creating projectId =>
    match (t.created projectId).run s with
    | (.ok project, s') => some ({ t with stage := .housed project }, s')
    | (.error e, s') => some ({ t with stage := .rest (.raise e) (leavesFiled_raise e) }, s')
  | .housed project =>
    match findDuplicate U (s.projectTasks project.id) t.intent.taskTitle with
    | some _ => some ({ t with stage := .rest (Pure.pure ()) fun _ => Keeps.pure () }, s)
    | none => some ({ t with stage := .absent project }, s)
  | .absent project => some ({ t with stage := .adding project s.nextId }, s.drawn 1)
  | .adding project taskId =>
    match (t.added project taskId).run s with
    | (.ok task, s') => some ({ t with stage := .rest _ (t.leavesFiled_finish sink project task) }, s')
    | (.error e, s') => some ({ t with stage := .rest (.raise e) (leavesFiled_raise e) }, s')
  | .rest (.pure _) _ => none
  | .rest (.raise _) _ => none
  | .rest (.atomic op k) h => some ({ t with stage := .rest (k (op s).1) fun s₀ => (h s₀).rest _ }, (op s).2)

theorem created_turn (t : CaptureThread) (projectId : UUID) (s : Store) : (t.created projectId).turn s =
    some (ofExcept ((t.created projectId).run s).1, ((t.created projectId).run s).2) := turn_call _ s

theorem added_turn (t : CaptureThread) (project : ProjectRecord) (taskId : UUID) (s : Store) :
    (t.added project taskId).turn s =
      some (ofExcept ((t.added project taskId).run s).1, ((t.added project taskId).run s).2) := turn_call _ s

theorem next_turn (t : CaptureThread) (s : Store) :
    (t.next U sink s).map (Prod.map (program U sink) id) = (t.program U sink).turn s := by
  obtain ⟨intent, actor, stage⟩ := t
  cases stage with
  | start =>
    have hturn : (program U sink ⟨intent, actor, .start⟩).turn s =
        some (silently (resolved ⟨intent, actor, .start⟩
          ((s.projectByTitle U (captureTarget intent.projectName)).map foundProject) >>=
            file U sink ⟨intent, actor, .start⟩), s) := by
      rfl
    rw [hturn]
    simp only [next]
    cases s.projectByTitle U (captureTarget intent.projectName) <;> rfl
  | missing => rfl
  | creating projectId =>
    have hturn := turn_bind (turn_bind (created_turn ⟨intent, actor, .creating projectId⟩ projectId s)
      (file U sink ⟨intent, actor, .creating projectId⟩)) fun _ => Pure.pure ()
    refine Eq.trans ?_ hturn.symm
    simp only [next]
    rcases (created _ projectId).run s with ⟨_ | _, s'⟩ <;> rfl
  | housed project =>
    have hturn : (program U sink ⟨intent, actor, .housed project⟩).turn s =
        some (silently (fileBeside U sink ⟨intent, actor, .housed project⟩ project (s.projectTasks project.id)), s) := by
      rfl
    rw [hturn]
    simp only [next, fileBeside]
    cases findDuplicate U (s.projectTasks project.id) intent.taskTitle <;> rfl
  | absent project => rfl
  | adding project taskId =>
    have hturn := turn_bind (turn_bind (added_turn ⟨intent, actor, .adding project taskId⟩ project taskId s)
      (finish sink ⟨intent, actor, .adding project taskId⟩ project)) fun _ => Pure.pure ()
    refine Eq.trans ?_ hturn.symm
    simp only [next]
    rcases (added _ project taskId).run s with ⟨_ | _, s'⟩ <;> rfl
  | rest p h => cases p <;> rfl

end Next

section Keys

variable (U : CharTables)

/-- Looked for in vain, and not inserted yet. -/
def wants (t : CaptureThread) : Option CaptureKey :=
  match t.stage with
  | .missing | .creating _ => some (.project (U.lower (captureTarget t.intent.projectName).toList))
  | .absent project | .adding project _ => some (.task project.id (U.lower (stripChars t.intent.taskTitle.toList)))
  | _ => none

/-- Inserted by the next operation. -/
def brings (t : CaptureThread) : Option CaptureKey :=
  match t.stage with
  | .creating _ | .adding _ _ => t.wants U
  | _ => none

end Keys

end CaptureThread

def Store.LacksKey (U : CharTables) (s : Store) : CaptureKey → Prop
  | .project title => ∀ p ∈ s.projects.values, U.lower p.title.toList ≠ title
  | .task projectId title => ∀ row ∈ s.tasks.values, row.projectId = projectId → row.status ≠ .done →
      U.lower (stripChars row.name.toList) ≠ title

def captureLookout (U : CharTables) (sink : Option TaskSink) : Lookout Store PlannerError CaptureThread CaptureKey where
  program := CaptureThread.program U sink
  next := CaptureThread.next U sink
  wants := CaptureThread.wants U
  brings := CaptureThread.brings U
  Lacks := Store.LacksKey U
  next_turn := CaptureThread.next_turn U sink

/-- A capture that has done nothing yet. -/
def CaptureThread.Starting (t : CaptureThread) : Prop := t.stage = .start

/-- What one operation of a capture writes. -/
inductive CaptureThread.Writes (t : CaptureThread) (s : Store) : Store → Prop
  | nothing {s' : Store} (hp : s'.projects = s.projects) (ht : s'.tasks = s.tasks) : Writes t s s'
  | project {s' : Store} {p : UUID} {row : ProjectRow} (hstage : t.stage = .creating p)
      (htitle : row.title = captureTarget t.intent.projectName) (hp : s'.projects = s.projects.insert p row)
      (ht : s'.tasks = s.tasks) : Writes t s s'
  | task {s' : Store} {project : ProjectRecord} {taskId : UUID} {row : TaskRow} (hstage : t.stage = .adding project taskId)
      (hproject : row.projectId = project.id) (hname : row.name = t.intent.taskTitle) (hp : s'.projects = s.projects)
      (ht : s'.tasks = s.tasks.insert taskId row) : Writes t s s'

section Faithful

variable {U : CharTables} {sink : Option TaskSink} {t t' : CaptureThread} {s s' : Store}

theorem next_writes (h : t.next U sink s = some (t', s')) : t.Writes s s' := by
  obtain ⟨intent, actor, stage⟩ := t
  cases stage with
  | start =>
    simp only [CaptureThread.next] at h
    split at h <;> cases h <;> exact .nothing rfl rfl
  | missing =>
    cases h
    exact .nothing rfl rfl
  | creating projectId =>
    simp only [CaptureThread.next, CaptureThread.created, Repo.createProject, run_call] at h
    by_cases hc : s.knows (actor.map PersonRecord.id) ∧ projectId ∉ s.projects.keys
    · rw [if_pos hc] at h
      cases h
      refine .project rfl ?_ rfl rfl
      dsimp only
    · rw [if_neg hc] at h
      cases h
      exact .nothing rfl rfl
  | housed project =>
    simp only [CaptureThread.next] at h
    split at h <;> cases h <;> exact .nothing rfl rfl
  | absent project =>
    cases h
    exact .nothing rfl rfl
  | adding project taskId =>
    simp only [CaptureThread.next, CaptureThread.added, Repo.addTask, run_call] at h
    by_cases hc : project.id ∈ s.projects.keys ∧ taskId ∉ s.tasks.keys
    · rw [if_pos hc] at h
      cases h
      refine .task rfl ?_ ?_ rfl rfl
      · dsimp only
      · dsimp only
    · rw [if_neg hc] at h
      cases h
      exact .nothing rfl rfl
  | rest p hp =>
    cases p with
    | pure a => cases h
    | raise e => cases h
    | atomic op k =>
      cases h
      have hkept := (hp s).operate (s := s) ⟨rfl, rfl⟩
      exact .nothing hkept.1 hkept.2

theorem lacksKey_congr (hp : s'.projects = s.projects) (ht : s'.tasks = s.tasks) (k : CaptureKey) :
    s'.LacksKey U k ↔ s.LacksKey U k := by
  cases k <;> simp only [Store.LacksKey, hp, ht]

theorem projectByTitle_lacks {title : String} (h : s.projectByTitle U title = none) :
    s.LacksKey U (.project (U.lower title.toList)) := by
  intro p hp
  obtain ⟨e, he, rfl⟩ := List.mem_map.mp hp
  simpa using List.find?_eq_none.mp (show List.find? _ _ = none from h) e he

theorem findDuplicate_lacks {projectId : UUID} {title : String}
    (h : findDuplicate U (s.projectTasks projectId) title = none) :
    s.LacksKey U (.task projectId (U.lower (stripChars title.toList))) := by
  intro row hrow hproject hopen hsame
  obtain ⟨id, hid⟩ := OrdDict.mem_values.mp hrow
  have hmem : (⟨id, row.name, row.status, row.endDate, row.durationHours⟩ : TaskRecord) ∈ s.projectTasks projectId :=
    Store.mem_projectTasks.mpr ⟨row, hid, hproject, rfl⟩
  have hnone := List.find?_eq_none.mp (show List.find? _ _ = none from h) _ hmem
  exact hnone (by simp [hopen, hsame])

theorem next_looked (h : t.next U sink s = some (t', s')) (hlack : ∀ k ∈ t.wants U, s.LacksKey U k) :
    ∀ k ∈ t'.wants U, s'.LacksKey U k := by
  obtain ⟨intent, actor, stage⟩ := t
  cases stage with
  | start =>
    simp only [CaptureThread.next] at h
    split at h
    · cases h
      exact fun k hk => nomatch hk
    · rename_i hnone
      cases h
      intro k hk
      obtain rfl := Option.some.inj hk
      exact projectByTitle_lacks hnone
  | missing =>
    cases h
    exact fun k hk => (lacksKey_congr rfl rfl k).mpr (hlack k hk)
  | creating projectId =>
    simp only [CaptureThread.next] at h
    split at h <;> cases h <;> exact fun k hk => nomatch hk
  | housed project =>
    simp only [CaptureThread.next] at h
    split at h
    · cases h
      exact fun k hk => nomatch hk
    · rename_i hnone
      cases h
      intro k hk
      obtain rfl := Option.some.inj hk
      exact findDuplicate_lacks hnone
  | absent project =>
    cases h
    exact fun k hk => (lacksKey_congr rfl rfl k).mpr (hlack k hk)
  | adding project taskId =>
    simp only [CaptureThread.next] at h
    split at h <;> cases h <;> exact fun k hk => nomatch hk
  | rest p hp =>
    cases p with
    | pure a => cases h
    | raise e => cases h
    | atomic op k =>
      cases h
      exact fun k hk => nomatch hk

theorem CaptureThread.Writes.kept (h : t.Writes s s') {k : CaptureKey} (hlack : s.LacksKey U k) (hk : k ∉ t.brings U) :
    s'.LacksKey U k := by
  cases h with
  | nothing hp ht => exact (lacksKey_congr hp ht k).mpr hlack
  | @project p row hstage htitle hp ht =>
    cases k with
    | task projectId title =>
      simp only [Store.LacksKey, ht]
      exact hlack
    | project title =>
      intro q hq
      rw [hp] at hq
      rcases OrdDict.mem_values_insert hq with rfl | hq
      · rintro rfl
        exact hk (by simp [CaptureThread.brings, CaptureThread.wants, hstage, htitle])
      · exact hlack q hq
  | @task project taskId row hstage hproject hname hp ht =>
    cases k with
    | project title =>
      simp only [Store.LacksKey, hp]
      exact hlack
    | task projectId title =>
      intro u hu huproject huopen
      rw [ht] at hu
      rcases OrdDict.mem_values_insert hu with rfl | hu
      · rintro rfl
        exact hk (by simp [CaptureThread.brings, CaptureThread.wants, hstage, hname, ← huproject, hproject])
      · exact hlack u hu huproject huopen

theorem captureLookout_faithful (U : CharTables) (sink : Option TaskSink) :
    (captureLookout U sink).Faithful CaptureThread.Starting where
  start t ht := by
    change t.wants U = none
    rw [CaptureThread.wants, show t.stage = .start from ht]
  looked t s t' s' h := next_looked h
  kept t s t' s' k h := (next_writes h).kept

end Faithful

/-- Two open tasks of one project have different names, but for case and blanks. -/
def TasksDiffer (U : CharTables) (row row' : TaskRow) : Prop :=
  row.status ≠ .done → row'.status ≠ .done → row.projectId = row'.projectId →
    U.lower (stripChars row.name.toList) ≠ U.lower (stripChars row'.name.toList)

/-- Since `s₀`, no open task was captured twice and no project was created twice. -/
structure NoDuplicates (U : CharTables) (s₀ s : Store) : Prop where
  tasks : s.tasks.Apart (· ∉ s₀.tasks.keys) (TasksDiffer U)
  projects : s.projects.Apart (· ∉ s₀.projects.keys) fun p p' => U.lower p.title.toList ≠ U.lower p'.title.toList

theorem CaptureThread.Writes.noDuplicates {U : CharTables} {t : CaptureThread} {s₀ s s' : Store} (h : t.Writes s s')
    (hlack : ∀ k ∈ t.wants U, s.LacksKey U k) (hs : NoDuplicates U s₀ s) : NoDuplicates U s₀ s' := by
  cases h with
  | nothing hp ht => exact ⟨ht ▸ hs.tasks, hp ▸ hs.projects⟩
  | @project p row hstage htitle hp ht =>
    have hlacks : s.LacksKey U (.project (U.lower row.title.toList)) :=
      hlack _ (by simp [CaptureThread.wants, hstage, htitle])
    refine ⟨ht ▸ hs.tasks, hp ▸ hs.projects.insert (fun _ _ => Ne.symm) fun q hq => ?_⟩
    exact (hlacks q hq).symm
  | @task project taskId row hstage hproject hname hp ht =>
    have hlacks : s.LacksKey U (.task row.projectId (U.lower (stripChars row.name.toList))) :=
      hlack _ (by simp [CaptureThread.wants, hstage, hproject, hname])
    refine ⟨ht ▸ hs.tasks.insert (fun u u' h ho ho' hp hsame => ?_) fun u hu ho ho' hp => ?_, hp ▸ hs.projects⟩
    · exact h ho' ho hp.symm hsame.symm
    · exact (hlacks u hu hp.symm ho').symm

/-- Any capture may be started at any time. -/
def Capturing (U : CharTables) (sink : Option TaskSink) (_ : Store) (p : UseCase Unit) : Prop :=
  ∃ intent actor, p = captureTask U sink intent actor >>= fun _ => Pure.pure ()

theorem launched_starting (U : CharTables) (sink : Option TaskSink) :
    (captureLookout U sink).Launched CaptureThread.Starting = Capturing U sink := by
  funext s p
  refine propext ⟨?_, ?_⟩
  · rintro ⟨⟨intent, actor, stage⟩, rfl, rfl⟩
    exact ⟨intent, actor, rfl⟩
  · rintro ⟨intent, actor, rfl⟩
    exact ⟨⟨intent, actor, .start⟩, rfl, rfl⟩

/-- The stages add nothing: every run of captures passes through them. -/
theorem captures_reach_iff (U : CharTables) (sink : Option TaskSink) (s₀ : Store) (c : Config Store PlannerError) :
    Config.Reaches (Capturing U sink) (fun _ => False) ⟨s₀, []⟩ c ↔
      ∃ ts : List CaptureThread, c.threads = ts.map (CaptureThread.program U sink) ∧
        (captureLookout U sink).Run CaptureThread.Starting (fun _ _ _ => True) (s₀, []) (c.state, ts) := by
  rw [← launched_starting]
  constructor
  · intro h
    obtain ⟨⟨s, ts⟩, rfl, hrun⟩ := Lookout.exists_run_of_reaches (L := captureLookout U sink) (x := (s₀, [])) h
    exact ⟨ts, rfl, hrun⟩
  · rintro ⟨ts, hts, hrun⟩
    obtain ⟨s, threads⟩ := c
    obtain rfl : threads = ts.map (CaptureThread.program U sink) := hts
    exact hrun.reaches

def montage : CaptureTaskIntent where
  taskTitle := "Монтаж"
  assigneeNames := []
  projectName := some "Ролик"
  deadline := none
  timeStart := none
  estHours := none
  requiredSkills := []
  title_length := by decide
  assignees_length := by decide
  project_length := by decide
  skills_length := by decide

def montageProject : ProjectRow where
  title := "Ролик"
  templateId := none
  deadline := none
  briefReturnDate := none
  createdBy := none

def montageStore : Store where
  projects := OrdDict.empty.insert 1 montageProject
  nextId := 2

def capturing : UseCase Unit := captureTask .plain none montage none >>= fun _ => Pure.pure ()

end Planner
