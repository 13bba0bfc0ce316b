import Planner.Greedy
import Planner.Lib.Program
import Planner.Text

/-! The tables behind the repository, one dictionary per table, keyed by its
primary key. Ids and dates inside a payload stand for their text. -/

namespace Planner

inductive PlanStatus
  | proposed
  | committed
  | superseded
  deriving DecidableEq, Repr

inductive ProjectStatus
  | planning
  | committed
  | cancelled
  deriving DecidableEq, Repr

/-- The JSON snapshot in `plan_versions.payload`. -/
structure Payload where
  assignments : List Assignment
  risks : List RiskFlag
  endDate : Option Date
  deriving DecidableEq, Repr

structure PersonRow where
  name : String
  capacityH : Int := 8
  isAdmin : Bool := false
  isActive : Bool := true
  deriving DecidableEq, Repr

structure TemplateTaskRow where
  templateId : UUID
  ord : Int
  name : String
  durationHours : Int
  durationIsWindow : Bool := false
  isSplittable : Bool := false
  pairMode : PairMode := .none
  deriving DecidableEq, Repr

inductive Strictness
  | A
  | B
  | C
  deriving DecidableEq, Repr

def Strictness.rank : Strictness → Nat
  | .A => 0
  | .B => 1
  | .C => 2

structure AssigneeRow where
  strictness : Strictness
  priority : Int := 0
  deriving DecidableEq, Repr

structure ProjectRow where
  title : String
  templateId : Option UUID
  deadline : Option Date
  briefReturnDate : Option Date
  priority : String := "medium"
  status : ProjectStatus := .planning
  notionPageId : Option String := none
  createdBy : Option UUID
  deriving DecidableEq, Repr

structure TaskRow where
  projectId : UUID
  name : String
  durationHours : Int
  startDate : Option Date := none
  endDate : Option Date := none
  timeStart : Option TimeOfDay := none
  status : TaskStatus := .notDone
  source : TaskSource := .botFormed
  requiredSkills : List String := []
  isSplittable : Bool := false
  durationIsWindow : Bool := false
  pairMode : PairMode := .none
  deriving DecidableEq, Repr

structure OverrideRow where
  capacityH : Int
  reason : Option String
  deriving DecidableEq, Repr

structure PlanVersionRow where
  projectId : UUID
  status : PlanStatus
  payload : Payload
  createdBy : Option UUID
  deriving DecidableEq, Repr

inductive AuditValue
  | text (s : String)
  | number (n : Int)
  | texts (l : List String)
  deriving DecidableEq, Repr

structure AuditRow where
  actorId : Option UUID
  action : String
  entityType : String
  entityId : Option UUID
  payload : Option (List (String × AuditValue))
  deriving DecidableEq, Repr

/-- `assignments` is keyed by task and person, `dependencies` by the task and
the one it depends on. `nextId` supplies `uuid4()`. -/
structure Store where
  people : OrdDict UUID PersonRow := .empty
  templates : OrdDict UUID String := .empty
  templateTasks : OrdDict UUID TemplateTaskRow := .empty
  templateTaskAssignees : OrdDict (UUID × UUID) AssigneeRow := .empty
  templateDependencies : OrdDict (UUID × UUID) Link := .empty
  projects : OrdDict UUID ProjectRow := .empty
  tasks : OrdDict UUID TaskRow := .empty
  assignments : OrdDict (UUID × UUID) Int := .empty
  dependencies : OrdDict (UUID × UUID) Link := .empty
  dayOverrides : OrdDict (UUID × Date) OverrideRow := .empty
  planVersions : OrdDict UUID PlanVersionRow := .empty
  audit : List AuditRow := []
  nextId : UUID := 0

/-- What a use-case or a repository call may raise. -/
inductive PlannerError
  | solver (e : PlanError)
  | invalidProject (message : String)
  | planNotFound (id : UUID)
  | planNotProposed (status : Option PlanStatus)
  | permission (message : String)
  | invalidStatus (status : String)
  | personNotFound (name : String)
  | invalidVacation (message : String)
  | http (status : Nat) (detail : String)
  | value
  | key
  /-- A number does not fit a machine integer. -/
  | overflow
  /-- A primary or foreign key would be violated. -/
  | integrity
  /-- The database or another service did not answer. -/
  | unavailable
  deriving DecidableEq, Repr

abbrev UseCase := Program Store PlannerError

namespace Payload

def mentions (p : Payload) (taskId : UUID) : Bool := p.assignments.any fun a => a.taskId = taskId

/-- Rewrites every assignment of one task. -/
def editTask (p : Payload) (taskId : UUID) (f : Assignment → Assignment) : Payload :=
  { p with assignments := p.assignments.map fun a => if a.taskId = taskId then f a else a }

end Payload

namespace Store

def planAssignments (s : Store) : List Assignment :=
  s.planVersions.values.flatMap fun pv => pv.payload.assignments

def committedPayloads (s : Store) : List Payload :=
  (s.planVersions.values.filter fun pv => pv.status = .committed).map PlanVersionRow.payload

/-- Keys drawn so far, foreign keys, and what only the use-cases guarantee:
one plan version per project, and a task in one place of one payload. -/
structure WF (s : Store) : Prop where
  project_lt : ∀ p ∈ s.projects.keys, p < s.nextId
  task_lt : ∀ t ∈ s.tasks.keys, t < s.nextId
  version_lt : ∀ v ∈ s.planVersions.keys, v < s.nextId
  task_project : ∀ row ∈ s.tasks.values, row.projectId ∈ s.projects.keys
  assignment_keys : ∀ k ∈ s.assignments.keys, k.1 ∈ s.tasks.keys ∧ k.2 ∈ s.people.keys
  override_person : ∀ k ∈ s.dayOverrides.keys, k.1 ∈ s.people.keys
  dependency_tasks : ∀ k ∈ s.dependencies.keys, k.1 ∈ s.tasks.keys ∧ k.2 ∈ s.tasks.keys
  version_project : ∀ pv ∈ s.planVersions.values, pv.projectId ∈ s.projects.keys
  one_version : (s.planVersions.values.map PlanVersionRow.projectId).Nodup
  planned_task : ∀ a ∈ s.planAssignments, a.taskId ∈ s.tasks.keys
  planned_once : (s.planAssignments.map Assignment.taskId).Nodup

end Store

end Planner
