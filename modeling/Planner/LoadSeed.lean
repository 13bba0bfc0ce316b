import Planner.Repo

/-! Loading a template document into the tables. An entry is what YAML gives: keys
that may be absent are options, and link types and strictness are texts until
the tables check them. -/

namespace Planner

/-- An entry of `depends_on`: a bare ord, or `{ord, link?, lag_days?}`. -/
inductive DependsOn
  | bare (ord : Int)
  | mapping (ord : Int) (link : Option String) (lagDays : Option Int)
  deriving DecidableEq, Repr

structure AssigneeEntry where
  name : String
  strictness : String
  priority : Option Int := none
  deriving DecidableEq, Repr

structure TaskEntry where
  ord : Int
  name : String
  durationHours : Int
  durationIsWindow : Option Bool := none
  isSplittable : Option Bool := none
  pairMode : Option String := none
  allowTwoAssignees : Option Bool := none
  assignees : List AssigneeEntry := []
  dependsOn : List DependsOn := []
  deriving DecidableEq, Repr

/-- `_pair_mode`, with the deprecated flag behind it. -/
def pairModeOf (entry : TaskEntry) : PairMode :=
  if entry.pairMode = some "none" then .none
  else if entry.pairMode = some "optional" then .optional
  else if entry.pairMode = some "required" then .required
  else if entry.allowTwoAssignees.getD false then .optional
  else .none

/-- `(ord, link_type, lag_working_days)`. -/
def depFields : DependsOn → Int × String × Int
  | .bare ord => (ord, "FS", 0)
  | .mapping ord link lagDays => (ord, link.getD "FS", lagDays.getD 0)

/-- `ck_link_type_template`. -/
def LinkType.ofColumn? (text : String) : Option LinkType :=
  if text = "FS" then some .FS else if text = "SS" then some .SS else none

/-- `ck_strictness`. -/
def Strictness.ofColumn? (text : String) : Option Strictness :=
  if text = "A" then some .A else if text = "B" then some .B else if text = "C" then some .C else none

/-- New rows under keys that must not be there yet. -/
def insertRows {κ ν : Type} [DecidableEq κ] (table : OrdDict κ ν) : List (κ × ν) → Except PlannerError (OrdDict κ ν)
  | [] => .ok table
  | (k, v) :: rows => if k ∈ table.keys then .error .integrity else insertRows (table.insert k v) rows

def TaskEntry.row (entry : TaskEntry) (templateId : UUID) : TemplateTaskRow where
  templateId := templateId
  ord := entry.ord
  name := entry.name
  durationHours := entry.durationHours
  durationIsWindow := entry.durationIsWindow.getD false
  isSplittable := entry.isSplittable.getD false
  pairMode := pairModeOf entry

/-- The priority is the place in the list unless it is given. -/
def assigneeRows (people : OrdDict String UUID) (taskId : UUID) (entry : TaskEntry) :
    Except PlannerError (List ((UUID × UUID) × String × Int)) :=
  entry.assignees.zipIdx.mapM fun (asgn, idx) =>
    match people.get? asgn.name with
    | none => .error .value
    | some person => .ok ((taskId, person), asgn.strictness, asgn.priority.getD idx)

def dependencyRows (ordToTask : OrdDict Int UUID) (taskId : UUID) (entry : TaskEntry) :
    Except PlannerError (List ((UUID × UUID) × String × Int)) :=
  entry.dependsOn.mapM fun dep =>
    let (depOrd, linkType, lag) := depFields dep
    match ordToTask.get? depOrd with
    | none => .error .value
    | some depTask => .ok ((taskId, depTask), linkType, lag)

def checkAssignee (persons : List UUID) (row : (UUID × UUID) × String × Int) :
    Except PlannerError ((UUID × UUID) × AssigneeRow) :=
  match Strictness.ofColumn? row.2.1 with
  | some strictness =>
    if row.1.2 ∈ persons then .ok (row.1, ⟨strictness, row.2.2⟩) else .error .integrity
  | none => .error .integrity

def checkDependency (row : (UUID × UUID) × String × Int) : Except PlannerError ((UUID × UUID) × Link) :=
  match LinkType.ofColumn? row.2.1 with
  | some linkType => .ok (row.1, ⟨linkType, row.2.2⟩)
  | none => .error .integrity

namespace Store

/-- The row of the template, new or the one that has the code. -/
def upsertTemplate (s : Store) (code : String) : UUID × Store :=
  match s.templateIdOf code with
  | some templateId => (templateId, s)
  | none => (s.nextId, { s with templates := s.templates.insert s.nextId code, nextId := s.nextId + 1 })

/-- Drops the child rows of an earlier version. -/
def dropChildren (s : Store) (templateId : UUID) : Except PlannerError Store :=
  let tasks := (s.templateTasks.filter fun _ row => row.templateId = templateId).keys
  let dependencies := s.templateDependencies.filter fun k _ => k.1 ∉ tasks
  -- a row that stays still points to a task that goes
  if dependencies.keys.any (fun k => k.2 ∈ tasks) then .error .integrity
  else .ok { s with
    templateDependencies := dependencies
    templateTaskAssignees := s.templateTaskAssignees.filter fun k _ => k.1 ∉ tasks
    templateTasks := s.templateTasks.filter fun _ row => row.templateId ≠ templateId }

/-- `load_template`, in the transaction of its caller. -/
def loadTemplate (s : Store) (code : String) (entries : List TaskEntry) (people : OrdDict String UUID) :
    Except PlannerError Store :=
  let (templateId, s) := s.upsertTemplate code
  (s.dropChildren templateId).bind fun s =>
    let ids := List.range' s.nextId entries.length
    let s := { s with
      templateTasks := s.templateTasks.insertAll (ids.zip (entries.map fun e : TaskEntry => e.row templateId))
      nextId := s.nextId + entries.length }
    let ordToTask := OrdDict.ofList ((entries.map TaskEntry.ord).zip ids)
    (entries.mapM fun e => assigneeRows people (ordToTask.getD e.ord 0) e).bind fun assignees =>
    (entries.mapM fun e => dependencyRows ordToTask (ordToTask.getD e.ord 0) e).bind fun dependencies =>
    (assignees.flatten.mapM (checkAssignee s.people.keys)).bind fun assignees =>
    (dependencies.flatten.mapM checkDependency).bind fun dependencies =>
    (insertRows s.templateTaskAssignees assignees).bind fun assignees =>
    (insertRows s.templateDependencies dependencies).map fun dependencies =>
      { s with templateTaskAssignees := assignees, templateDependencies := dependencies }

end Store

end Planner
