import Planner.Store

/-! The repository. Every method is one transaction: it answers and changes
the tables in a single step, or raises and changes nothing. -/

namespace Planner

structure PersonRecord where
  id : UUID
  name : String
  isAdmin : Bool := false
  capacityH : Int := 8
  deriving DecidableEq, Repr

structure PlanVersionRecord where
  id : UUID
  projectId : UUID
  status : PlanStatus
  payload : Payload
  deriving DecidableEq, Repr

structure ProjectRecord where
  id : UUID
  title : String
  status : ProjectStatus
  deadline : Option Date := none
  priority : String := "medium"
  templateCode : Option String := none
  notionPageId : Option String := none
  deriving DecidableEq, Repr

/-- `dependsOnOrds`, `linkTypes` and `depLags` are parallel. -/
structure TemplateTaskSpec where
  ord : Int
  name : String
  durationHours : Int
  allowedPersonIds : List UUID
  dependsOnOrds : List Int := []
  linkTypes : List LinkType := []
  depLags : List Int := []
  isSplittable : Bool := false
  pairMode : PairMode := .none
  durationIsWindow : Bool := false
  deriving DecidableEq, Repr

structure ProjectTemplate where
  code : String
  tasks : List TemplateTaskSpec
  deriving DecidableEq, Repr

def PersonRow.record (id : UUID) (p : PersonRow) : PersonRecord :=
  ⟨id, p.name, p.isAdmin, p.capacityH⟩

namespace Store

/-- `ORDER BY name`. -/
def peopleByName (s : Store) : List (UUID × PersonRow) :=
  s.people.entries.insertionSort fun p q => p.2.name ≤ q.2.name

def personByName (s : Store) (name : String) : Option PersonRecord :=
  let byName := OrdDict.ofList (s.people.entries.map fun e => (e.2.name, e.2.record e.1))
  (matchPersonName byName.keys name).bind byName.get?

/-- A foreign key that may be null. -/
def knows (s : Store) (personId : Option UUID) : Prop := ∀ p ∈ personId, p ∈ s.people.keys

instance (s : Store) (personId : Option UUID) : Decidable (s.knows personId) :=
  inferInstanceAs (Decidable (∀ p ∈ personId, p ∈ s.people.keys))

def solverPeople (s : Store) : List Person :=
  (s.peopleByName.filter fun e => e.2.isActive).map fun e => ⟨e.1, e.2.name, e.2.capacityH⟩

def overrideList (s : Store) : List DayOverride :=
  s.dayOverrides.entries.map fun e => ⟨e.1.1, e.1.2, e.2.capacityH⟩

/-- The lag column is not read. -/
def dependencyList (s : Store) : List Dependency :=
  s.dependencies.entries.map fun e => { taskId := e.1.1, dependsOnId := e.1.2, linkType := e.2.linkType }

def templateIdOf (s : Store) (code : String) : Option UUID :=
  (s.templates.entries.find? fun e => e.2 = code).map Prod.fst

def projectTemplate (s : Store) (code : String) : Option ProjectTemplate :=
  (s.templateIdOf code).map fun templateId =>
    let rows := (s.templateTasks.entries.filter fun e => e.2.templateId = templateId).insertionSort
      fun a b => a.2.ord ≤ b.2.ord
    let idToOrd := OrdDict.ofList (rows.map fun e => (e.1, e.2.ord))
    let assignees := s.templateTaskAssignees.entries.insertionSort fun a b =>
      a.2.priority < b.2.priority ∨
        a.2.priority = b.2.priority ∧ a.2.strictness.rank ≤ b.2.strictness.rank
    let specs := rows.map fun e =>
      let deps := s.templateDependencies.entries.filterMap fun d =>
        if d.1.1 = e.1 then (idToOrd.get? d.1.2).map fun ord => (ord, d.2) else none
      { ord := e.2.ord
        name := e.2.name
        durationHours := e.2.durationHours
        allowedPersonIds := (assignees.filter fun a => a.1.1 = e.1).map fun a => a.1.2
        dependsOnOrds := deps.map Prod.fst
        linkTypes := deps.map fun d => d.2.linkType
        depLags := deps.map fun d => d.2.lag
        isSplittable := e.2.isSplittable
        pairMode := e.2.pairMode
        durationIsWindow := e.2.durationIsWindow : TemplateTaskSpec }
    ⟨code, specs⟩

def putProject (s : Store) (id : UUID) (row : ProjectRow) : Store :=
  { s with projects := s.projects.insert id row }

def modifyProject (s : Store) (id : UUID) (f : ProjectRow → ProjectRow) : Store :=
  { s with projects := s.projects.modify id f }

def modifyTask (s : Store) (id : UUID) (f : TaskRow → TaskRow) : Store :=
  { s with tasks := s.tasks.modify id f }

/-- A new version under a fresh id. -/
def putVersion (s : Store) (row : PlanVersionRow) : Store :=
  { s with planVersions := s.planVersions.insert s.nextId row, nextId := s.nextId + 1 }

def modifyVersion (s : Store) (id : UUID) (f : PlanVersionRow → PlanVersionRow) : Store :=
  { s with planVersions := s.planVersions.modify id f }

def putOverride (s : Store) (personId : UUID) (day : Date) (row : OverrideRow) : Store :=
  { s with dayOverrides := s.dayOverrides.insert (personId, day) row }

/-- The only row of the task from now on. -/
def setAssignee (s : Store) (taskId personId : UUID) (hours : Int) : Store :=
  { s with
    assignments := (s.assignments.filter fun k _ => k.1 ≠ taskId).insert (taskId, personId) hours }

def putAudit (s : Store) (row : AuditRow) : Store := { s with audit := s.audit ++ [row] }

/-- The first committed plan version that holds the task. -/
def committedVersionOf (s : Store) (taskId : UUID) : Option UUID :=
  (s.planVersions.entries.find? fun e => e.2.status = .committed ∧ e.2.payload.mentions taskId).map
    Prod.fst

end Store

/-- Hours per distinct person; a window task has no allocations and records
its single assignee. -/
def hoursByPerson (t : Task) (a : Assignment) : OrdDict UUID Int :=
  match a.allocations with
  | [] => OrdDict.empty.insert a.personId t.durationHours
  | allocs => allocs.foldl (fun h al => h.insert al.personId (h.getD al.personId 0 + al.hours)) .empty

def assignmentRows (tasks : List Task) (byTask : OrdDict UUID Assignment) : List ((UUID × UUID) × Int) :=
  tasks.flatMap fun t =>
    match byTask.get? t.id with
    | none => []
    | some a => (hoursByPerson t a).entries.map fun e => ((t.id, e.1), e.2)

def scheduleOf (assignments : List Assignment) : OrdDict UUID Assignment :=
  OrdDict.ofList (assignments.map fun a => (a.taskId, a))

def taskRow (projectId : UUID) (byTask : OrdDict UUID Assignment) (t : Task) : TaskRow where
  projectId := projectId
  name := t.name
  durationHours := t.durationHours
  startDate := (byTask.get? t.id).map Assignment.startDate
  endDate := (byTask.get? t.id).map Assignment.endDate
  status := .notDone
  source := t.source
  requiredSkills := t.requiredSkills
  isSplittable := t.isSplittable
  pairMode := t.pairMode
  durationIsWindow := t.durationIsWindow

def Store.putTasks (s : Store) (projectId : UUID) (tasks : List Task) (assignments : List Assignment) :
    Store :=
  { s with
    tasks := s.tasks.insertAll (tasks.map fun t => (t.id, taskRow projectId (scheduleOf assignments) t))
    assignments := s.assignments.insertAll (assignmentRows tasks (scheduleOf assignments)) }

/-- What the keys of `tasks` and `assignments` demand of the rows of a plan. -/
def Store.Accepts (s : Store) (projectId : UUID) (tasks : List Task) (assignments : List Assignment) :
    Prop :=
  (tasks.map Task.id).Nodup ∧ (∀ t ∈ tasks, projectId ∈ s.projects.keys ∧ t.id ∉ s.tasks.keys) ∧
    ∀ r ∈ assignmentRows tasks (scheduleOf assignments),
      r.1.2 ∈ s.people.keys ∧ r.1 ∉ s.assignments.keys

instance (s : Store) (projectId : UUID) (tasks : List Task) (assignments : List Assignment) :
    Decidable (s.Accepts projectId tasks assignments) :=
  inferInstanceAs (Decidable (_ ∧ _ ∧ _))

/-- `n` ids are used up. -/
def Store.drawn (s : Store) (n : Nat) : Store := { s with nextId := s.nextId + n }

/-- The same rows; ids may have been drawn. -/
def Store.SameRows (s t : Store) : Prop := t = { s with nextId := t.nextId }

def uuid4 : UseCase UUID := .call fun s => (.ok s.nextId, s.drawn 1)

/-- `uuid4()`, `n` times in a row. -/
def uuid4s (n : Nat) : UseCase (List UUID) := .call fun s => (.ok (List.range' s.nextId n), s.drawn n)

namespace Repo

def getPersonByName (name : String) : UseCase (Option PersonRecord) := .read fun s => s.personByName name

def getPlanVersion (pvId : UUID) : UseCase (Option PlanVersionRecord) :=
  .read fun s => (s.planVersions.get? pvId).map fun pv => ⟨pvId, pv.projectId, pv.status, pv.payload⟩

/-- One conditional update: `true` iff exactly this transition happened. -/
def transitionPlanStatus (pvId : UUID) (fromStatus toStatus : PlanStatus) : UseCase Bool :=
  .call fun s =>
    if (s.planVersions.get? pvId).any fun pv => pv.status = fromStatus then
      (.ok true, s.modifyVersion pvId ({ · with status := toStatus }))
    else (.ok false, s)

def savePlanVersion (projectId : UUID) (status : PlanStatus) (payload : Payload)
    (actorId : Option UUID) : UseCase PlanVersionRecord :=
  .call fun s =>
    if projectId ∈ s.projects.keys ∧ s.knows actorId then
      (.ok ⟨s.nextId, projectId, status, payload⟩, s.putVersion ⟨projectId, status, payload, actorId⟩)
    else (.error .integrity, s)

def createProject (title templateCode : String) (deadline briefReturnDate : Option Date)
    (actorId : Option UUID) (projectId : UUID) : UseCase ProjectRecord :=
  .call fun s =>
    if s.knows actorId ∧ projectId ∉ s.projects.keys then
      (.ok { id := projectId, title := title, status := .planning, deadline := deadline
             templateCode := if templateCode = "" then none else some templateCode },
        s.putProject projectId {
          title := title
          templateId := s.templateIdOf templateCode
          deadline := deadline
          briefReturnDate := briefReturnDate
          createdBy := actorId })
    else (.error .integrity, s)

def getProject (projectId : UUID) : UseCase (Option ProjectRecord) :=
  .read fun s => (s.projects.get? projectId).map fun p =>
    { id := projectId, title := p.title, status := p.status, deadline := p.deadline
      notionPageId := p.notionPageId }

def upsertDayOverride (personId : UUID) (day : Date) (capacityH : Int) (reason : Option String) :
    UseCase Unit :=
  .call fun s =>
    if personId ∈ s.people.keys then (.ok (), s.putOverride personId day ⟨capacityH, reason⟩)
    else (.error .integrity, s)

def listDayOverrides : UseCase (List DayOverride) := .read Store.overrideList

/-- The person argument of the source is ignored there, too. -/
def updateTaskSchedule (taskId : UUID) (start end_ : Option Date) : UseCase Unit :=
  .call fun s => (.ok (), s.modifyTask taskId fun t =>
    { t with startDate := start.or t.startDate, endDate := end_.or t.endDate })

def setTaskStatus (taskId : UUID) (status : TaskStatus) : UseCase Unit :=
  .call fun s => (.ok (), s.modifyTask taskId ({ · with status := status }))

def setProjectStatus (projectId : UUID) (status : ProjectStatus) : UseCase Unit :=
  .call fun s => (.ok (), s.modifyProject projectId ({ · with status := status }))

def setProjectNotionPage (projectId : UUID) (pageId : String) : UseCase Unit :=
  .call fun s => (.ok (), s.modifyProject projectId ({ · with notionPageId := some pageId }))

def addAudit (actorId : Option UUID) (action entityType : String) (entityId : Option UUID)
    (payload : Option (List (String × AuditValue))) : UseCase Unit :=
  .call fun s =>
    if s.knows actorId then (.ok (), s.putAudit ⟨actorId, action, entityType, entityId, payload⟩)
    else (.error .integrity, s)

def getTaskNameMap : UseCase (OrdDict UUID String) := .read fun s => s.tasks.mapEntries fun _ t => t.name

def listPeople : UseCase (List PersonRecord) :=
  .read fun s => s.peopleByName.map fun e => e.2.record e.1

/-- `ORDER BY created_at DESC`. -/
def listProjects : UseCase (List ProjectRecord) :=
  .read fun s => s.projects.entries.reverse.map fun e =>
    { id := e.1, title := e.2.title, status := e.2.status, deadline := e.2.deadline, priority := e.2.priority
      templateCode := e.2.templateId.bind s.templates.get? }

def listCommittedPlans : UseCase (List Payload) := .read Store.committedPayloads

def listTaskDependencies : UseCase (List Dependency) := .read Store.dependencyList

def getSolverPeople : UseCase (List Person) := .read Store.solverPeople

def getProjectTemplate (code : String) : UseCase (Option ProjectTemplate) :=
  .read fun s => s.projectTemplate code

/-- Replaces the rows of the task by one row, of eight hours unless told otherwise. -/
def setTaskAssignee (taskId personId : UUID) (hours : Int := 8) : UseCase Bool :=
  .call fun s =>
    if taskId ∉ s.tasks.keys then (.ok false, s)
    else if personId ∈ s.people.keys then (.ok true, s.setAssignee taskId personId hours)
    else (.error .integrity, s)

/-- Edits the task in the first committed version that holds it, and in no other. -/
def editInPlan (taskId : UUID) (f : Assignment → Assignment) : UseCase Bool :=
  .call fun s =>
    match s.committedVersionOf taskId with
    | none => (.ok false, s)
    | some v => (.ok true, s.modifyVersion v fun pv => { pv with payload := pv.payload.editTask taskId f })

def reassignInPlan (taskId newPersonId : UUID) : UseCase Bool :=
  editInPlan taskId fun a =>
    { a with
      personId := newPersonId
      allocations := a.allocations.map ({ · with personId := newPersonId }) }

def updateScheduleInPlan (taskId : UUID) (start end_ : Option Date) : UseCase Bool :=
  editInPlan taskId fun a =>
    { a with startDate := start.getD a.startDate, endDate := end_.getD a.endDate }

/-- Either the whole task set lands or none of it. -/
def saveProjectTasks (projectId : UUID) (tasks : List Task) (assignments : List Assignment) :
    UseCase Unit :=
  .call fun s =>
    if s.Accepts projectId tasks assignments then (.ok (), s.putTasks projectId tasks assignments)
    else (.error .integrity, s)

end Repo

end Planner
