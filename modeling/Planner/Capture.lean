import Planner.Agent
import Planner.ConfirmPlan

/-! A message that becomes a task, and a task that is given to somebody. Both
leave the plan versions alone but for the assignee inside a committed payload. -/

namespace Planner

structure TaskRecord where
  id : UUID
  name : String
  status : TaskStatus
  endDate : Option Date
  durationHours : Int
  deriving DecidableEq, Repr

def Store.putTask (s : Store) (id : UUID) (row : TaskRow) : Store :=
  { s with tasks := s.tasks.insert id row }

def Store.putAssignment (s : Store) (taskId personId : UUID) (hours : Int) : Store :=
  { s with assignments := s.assignments.insert (taskId, personId) hours }

namespace Repo

/-- The titles are compared in lower case. -/
def getProjectByTitle (U : CharTables) (title : String) : UseCase (Option ProjectRecord) :=
  .read fun s =>
    (s.projects.entries.find? fun e => U.lower e.2.title.toList = U.lower title.toList).map fun e =>
      { id := e.1, title := e.2.title, status := e.2.status, deadline := e.2.deadline
        notionPageId := e.2.notionPageId }

/-- `ORDER BY name`. -/
def listProjectTasks (projectId : UUID) : UseCase (List TaskRecord) :=
  .read fun s =>
    ((s.tasks.entries.filter fun e => e.2.projectId = projectId).insertionSort
      fun a b => a.2.name ≤ b.2.name).map fun e => ⟨e.1, e.2.name, e.2.status, e.2.endDate, e.2.durationHours⟩

/-- Under an id that was drawn before. -/
def addTask (taskId projectId : UUID) (name : String) (durationHours : Int) (deadline : Option Date)
    (timeStart : Option TimeOfDay) (requiredSkills : List String) : UseCase TaskRecord :=
  .call fun s =>
    if projectId ∈ s.projects.keys ∧ taskId ∉ s.tasks.keys then
      (.ok ⟨taskId, name, .notDone, deadline, durationHours⟩, s.putTask taskId {
        projectId := projectId
        name := name
        durationHours := durationHours
        endDate := deadline
        timeStart := timeStart
        requiredSkills := requiredSkills })
    else (.error .integrity, s)

def createTask (projectId : UUID) (name : String) (durationHours : Int) (deadline : Option Date)
    (timeStart : Option TimeOfDay) (requiredSkills : List String) : UseCase TaskRecord := do
  let taskId ← uuid4
  addTask taskId projectId name durationHours deadline timeStart requiredSkills

/-- Adds the row or changes its hours. -/
def assignTask (taskId personId : UUID) (hours : Int) : UseCase Unit :=
  .call fun s =>
    if taskId ∈ s.tasks.keys ∧ personId ∈ s.people.keys then (.ok (), s.putAssignment taskId personId hours)
    else (.error .integrity, s)

/-- Ids and names, by project and name. -/
def listTasksWithMeta : UseCase (List (UUID × String)) :=
  .read fun s =>
    let title := fun e : UUID × TaskRow => ((s.projects.get? e.2.projectId).map ProjectRow.title).getD ""
    let rows := s.tasks.entries.insertionSort fun a b =>
      title a < title b ∨ title a = title b ∧ a.2.name ≤ b.2.name
    -- a task has one row for each of its assignees
    rows.flatMap fun e =>
      List.replicate (max 1 (s.assignments.keys.countP fun k => k.1 = e.1)) (e.1, e.2.name)

end Repo

structure CaptureResult where
  taskTitle : String
  projectTitle : String
  assigneeNames : List String
  deadlineIso : Option String
  notionUrl : Option String
  taskId : UUID
  durationHours : Int
  isDuplicate : Bool := false
  deriving DecidableEq, Repr

def inboxProject : String := "Inbox"
def captureHours : Int := 8

section Capture

variable (U : CharTables)

/-- An unknown project is created on the way. -/
def resolveProject (name : Option String) (actor : Option PersonRecord) : UseCase ProjectRecord := do
  let stripped := strip (name.getD "")
  let target := if stripped = "" then inboxProject else stripped
  match ← Repo.getProjectByTitle U target with
  | some existing => pure existing
  | none => do
    let projectId ← uuid4
    Repo.createProject target "" none none (actor.map PersonRecord.id) projectId

/-- A task of the same name that is not done. -/
def findDuplicate (tasks : List TaskRecord) (title : String) : Option TaskRecord :=
  tasks.find? fun t => t.status ≠ .done ∧ U.lower (stripChars t.name.toList) = U.lower (stripChars title.toList)

/-- The names that are found, in order. -/
def assignNames (taskId : UUID) (duration : Int) : List String → UseCase (List String)
  | [] => pure []
  | name :: rest => do
    match ← Repo.getPersonByName name with
    | none => assignNames taskId duration rest
    | some person => do
      Repo.assignTask taskId person.id duration
      let names ← assignNames taskId duration rest
      pure (person.name :: names)

def TimeOfDay.text (t : TimeOfDay) : String := Date.pad 2 t.hour ++ ":" ++ Date.pad 2 t.minute

/-- The card's link, if the mirror answers. -/
def pushCapture (sink : Option TaskSink) (card : SinkTask) : Option String :=
  match sink with
  | none => none
  | some sink =>
    match sink.pushTask 0 card with
    | .ok url => url
    | .error _ => none

def captureTask (sink : Option TaskSink) (intent : CaptureTaskIntent) (actor : Option PersonRecord) :
    UseCase CaptureResult := do
  let project ← resolveProject U intent.projectName actor
  let tasks ← Repo.listProjectTasks project.id
  match findDuplicate U tasks intent.taskTitle with
  | some task => pure ⟨task.name, project.title, [], task.endDate.map Date.isoformat, none, task.id,
      task.durationHours, true⟩
  | none => do
    let duration := match intent.estHours with
      | some est => if 0 < est then est else captureHours
      | none => captureHours
    let task ← Repo.createTask project.id intent.taskTitle duration intent.deadline intent.timeStart
      intent.requiredSkills
    let names ← assignNames task.id duration intent.assigneeNames
    Repo.addAudit (actor.map PersonRecord.id) "capture_task" "task" (some task.id)
      (some [("title", .text intent.taskTitle), ("project", .text project.title), ("assignees", .texts names)])
    let url := pushCapture sink ⟨intent.taskTitle, names, some project.title, intent.deadline, intent.timeStart⟩
    let deadlineIso := intent.deadline.map fun d => d.isoformat ++ match intent.timeStart with
      | some t => " " ++ t.text
      | none => ""
    pure ⟨intent.taskTitle, project.title, names, deadlineIso, url, task.id, duration, false⟩

end Capture

/-- The confirmation, field by field. -/
def formatCaptureConfirmation (title project : String) (assignees : List String) (deadlineIso : Option String) :
    String :=
  joined "\n" ["✓ Записал", "  задача: " ++ title, "  проект: " ++ project,
    "  кому: " ++ orDash (joined ", " assignees), "  дедлайн: " ++ orDash (deadlineIso.getD "")]

/-- The answer in the chat, without the suggestion of assignees. -/
def captureReplyText (result : CaptureResult) : String :=
  if result.isDuplicate then
    "Такая задача уже есть в проекте «" ++ result.projectTitle ++ "» — не дублирую."
  else
    formatCaptureConfirmation result.taskTitle result.projectTitle result.assigneeNames result.deadlineIso ++
      match result.notionUrl with
      | some url => if url = "" then "" else "\n\n🔗 Notion: " ++ url
      | none => ""

section Assign

variable (U : CharTables)

/-- An exact name, or else the names that appear in the reference. -/
def matchTasks (taskRef : String) (tasks : List (UUID × String)) : List (UUID × String) :=
  let ref := U.casefold (stripChars taskRef.toList)
  if ref = [] then []
  else
    let exact := tasks.filter fun t => U.casefold t.2.toList = ref
    if exact ≠ [] then exact else tasks.filter fun t => decide (U.casefold t.2.toList <:+: ref)

/-- One task, or a question. -/
def buildAssignReply (taskRef personName : String) (actorId : Option UUID) : UseCase String := do
  match ← Repo.getPersonByName personName with
  | none => pure ("Не нашёл человека «" ++ personName ++ "» — уточни имя.")
  | some person => do
    let tasks ← Repo.listTasksWithMeta
    match matchTasks U taskRef tasks with
    | [] => pure ("Не нашёл задачу «" ++ taskRef ++ "» — это не наша задача? Уточни название.")
    | [task] =>
      if ← Repo.setTaskAssignee task.1 person.id then do
        let _ ← Repo.reassignInPlan task.1 person.id
        Repo.addAudit actorId "reassign_task" "task" (some task.1)
          (some [("person_id", .text (toString person.id))])
        pure ("Назначил «" ++ task.2 ++ "» на " ++ person.name ++ ".")
      else pure ("Не нашёл задачу «" ++ taskRef ++ "» — уточни название.")
    | several => pure ("Нашёл несколько задач (" ++
        joined ", " ((several.map Prod.snd).dedup.mergeSort fun a b => a ≤ b) ++ ") — уточни, какую назначить.")

end Assign

end Planner
