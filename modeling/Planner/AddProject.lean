import Planner.CriticalPath
import Planner.Repo

/-! Proposing a project: the template becomes tasks and dependencies, the
solver a plan, and the plan a proposed version. -/

namespace Planner

structure AddProjectIntent where
  title : String
  templateCode : String
  deadline : Option Date := none
  briefReturnDate : Option Date := none
  deriving DecidableEq, Repr

structure SinkProject where
  title : String
  templateCode : String
  taskNames : List String
  deadline : Option Date
  deriving DecidableEq, Repr

/-- The master cards of an external service. -/
structure ProjectSink where
  createCard : SinkProject → Except PlannerError (Option String)

structure AddProjectResult where
  project : ProjectRecord
  planVersionId : UUID
  plan : PlanResult
  tasks : List Task
  earliestEnd : Option Date
  notionPageId : Option String
  deriving DecidableEq, Repr

/-- A dependency of the template, between ords. -/
structure TemplateEdge where
  ord : Int
  dependsOnOrd : Int
  linkType : LinkType
  lag : Int
  deriving DecidableEq, Repr

/-- Links that are not given are `FS` without lag. -/
def TemplateTaskSpec.edges (spec : TemplateTaskSpec) : List TemplateEdge :=
  spec.dependsOnOrds.zipIdx.map fun (depOrd, i) =>
    ⟨spec.ord, depOrd, spec.linkTypes.getD i .FS, spec.depLags.getD i 0⟩

def ProjectTemplate.edges (template : ProjectTemplate) : List TemplateEdge :=
  template.tasks.flatMap TemplateTaskSpec.edges

def ordToId (template : ProjectTemplate) (ids : List UUID) : OrdDict Int UUID :=
  OrdDict.ofList ((template.tasks.map TemplateTaskSpec.ord).zip ids)

def TemplateTaskSpec.toTask (spec : TemplateTaskSpec) (id projectId : UUID) : Task where
  id := id
  name := spec.name
  durationHours := spec.durationHours
  allowedPersonIds := spec.allowedPersonIds
  projectId := some projectId
  isSplittable := spec.isSplittable
  pairMode := spec.pairMode
  durationIsWindow := spec.durationIsWindow
  source := .template

def TemplateEdge.toDependency (e : TemplateEdge) (ids : OrdDict Int UUID) : Dependency :=
  ⟨ids.getD e.ord 0, ids.getD e.dependsOnOrd 0, e.linkType, e.lag⟩

/-- With the ids that were drawn, one for each task. -/
def instantiate (template : ProjectTemplate) (projectId : UUID) (ids : List UUID) :
    Except PlannerError (List Task × List Dependency) :=
  let ids := ordToId template ids
  if template.edges.all fun e => ids.contains e.dependsOnOrd then
    .ok (template.tasks.map fun spec => spec.toTask (ids.getD spec.ord 0) projectId,
      template.edges.map fun e => e.toDependency ids)
  else .error .key

def instantiateTemplate (template : ProjectTemplate) (projectId : UUID) :
    UseCase (List Task × List Dependency) := do
  let ids ← uuid4s template.tasks.length
  .ofExcept (instantiate template projectId ids)

def serializePlan (plan : PlanResult) : Payload := ⟨plan.assignments, plan.risks, plan.endDate⟩

def deserializeAllocations (payload : Payload) : List DayAllocation :=
  payload.assignments.flatMap Assignment.allocations

/-- The checks before anything is drawn or written; the answer is the title. -/
def validProject (intent : AddProjectIntent) (template : ProjectTemplate) (today : Date) :
    Except PlannerError String :=
  let title := strip intent.title
  if title = "" then .error (.invalidProject "Название проекта пустое.")
  else if intent.deadline.any (· < today) then .error (.invalidProject "Дедлайн в прошлом.")
  else if template.tasks.isEmpty then .error (.invalidProject "Шаблон без задач.")
  else .ok title

def projectRequest (people : List Person) (tasks : List Task) (deps : List Dependency) (today : Date)
    (overrides : List DayOverride) (existing : List DayAllocation) (deadline : Option Date) :
    PlanRequest where
  people := people
  tasks := tasks
  dependencies := deps
  horizonStart := today
  dayOverrides := overrides
  existingAllocations := existing
  deadline := deadline

def solveProject (solver : GreedySolver) (req : PlanRequest) : Except PlannerError PlanResult :=
  match solver.plan req with
  | .ok plan => .ok plan
  | .error .networkXUnfeasible => .error (.invalidProject "Цикл в зависимостях шаблона.")
  | .error .noPeople => .error (.invalidProject
      ("Не могу построить план: в системе нет ни одного исполнителя. " ++
        "Добавьте людей через seed или веб-админку."))
  | .error e => .error (.solver e)

/-- Only without a deadline. -/
def earliestEndOf (solver : GreedySolver) (req : PlanRequest) (today : Date) :
    Except PlannerError (Option Date) :=
  if req.deadline.isNone then
    match solver.presentedEarliestEnd req today with
    | .ok e => .ok (some e)
    | .error e => .error (.solver e)
  else .ok none

/-- The four writes, each a transaction of its own. -/
def recordProject (title : String) (intent : AddProjectIntent) (actorId : Option UUID)
    (projectId : UUID) (tasks : List Task) (plan : PlanResult) :
    UseCase (ProjectRecord × PlanVersionRecord) := do
  let project ← Repo.createProject title intent.templateCode intent.deadline intent.briefReturnDate
    actorId projectId
  Repo.saveProjectTasks project.id tasks plan.assignments
  let pv ← Repo.savePlanVersion project.id .proposed (serializePlan plan) actorId
  Repo.addAudit actorId "add_project" "project" (some project.id) (some [("title", .text title)])
  pure (project, pv)

/-- Best effort: whatever is raised, the project stays and has no card. -/
def mirrorProject (sink : Option ProjectSink) (card : SinkProject) (projectId : UUID) :
    UseCase (Option String) :=
  match sink with
  | none => pure none
  | some sink => do
    let r ← Program.attempt do
      let page ← .ofExcept (sink.createCard card)
      match page with
      | some id => if id = "" then pure page else do
        Repo.setProjectNotionPage projectId id
        pure page
      | none => pure page
    match r with
    | .ok page => pure page
    | .error _ => pure none

def addProject (solver : GreedySolver) (intent : AddProjectIntent) (actor : Option PersonRecord)
    (people : List Person) (template : ProjectTemplate) (today : Date)
    (existing : List DayAllocation) (overrides : List DayOverride) (sink : Option ProjectSink) :
    UseCase AddProjectResult := do
  let title ← .ofExcept (validProject intent template today)
  let projectId ← uuid4
  let (tasks, deps) ← instantiateTemplate template projectId
  let req := projectRequest people tasks deps today overrides existing intent.deadline
  let plan ← .ofExcept (solveProject solver req)
  let earliestEnd ← .ofExcept (earliestEndOf solver req today)
  let (project, pv) ← recordProject title intent (actor.map PersonRecord.id) projectId tasks plan
  let page ← mirrorProject sink ⟨title, intent.templateCode, tasks.map Task.name, intent.deadline⟩
    project.id
  pure ⟨project, pv.id, plan, tasks, earliestEnd, page⟩

/-- The chat path. The answer is the proposal or the text that declines it; the
stored day overrides are not handed over. -/
def buildAddProjectReply (solver : GreedySolver) (intent : AddProjectIntent)
    (actor : Option PersonRecord) (today : Date) (sink : Option ProjectSink) :
    UseCase (Except String AddProjectResult) := do
  match ← Repo.getProjectTemplate intent.templateCode with
  | none => pure (.error ("Шаблон «" ++ intent.templateCode ++ "» не найден."))
  | some template =>
    let people ← Repo.getSolverPeople
    if people.isEmpty then pure (.error "В команде нет активных людей — некому планировать.")
    else
      let payloads ← Repo.listCommittedPlans
      let existing := payloads.flatMap deserializeAllocations
      match ← (addProject solver intent actor people template today existing [] sink).attempt with
      | .ok result => pure (.ok result)
      | .error (.invalidProject message) => pure (.error ("Не могу создать проект: " ++ message))
      | .error e => .raise e

end Planner
