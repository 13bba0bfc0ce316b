import Planner.Capture
import Planner.Lib.Faults
import Planner.Replan

/-! The tools of the agent. Each call answers a text to the model and leaves its
evidence in the tool box of the turn; what it raises becomes a text, too. -/

namespace Planner

/-- A JSON value the model passes, as the tools look at it. -/
structure Arg where
  /-- `str(v)` -/
  shown : String
  /-- `not v` -/
  falsy : Bool
  /-- The value, if it is a string. -/
  text : Option String
  /-- `[str(a) for a in v]`, if one can iterate over it. -/
  items : Option (List String)
  /-- `int(v)` -/
  int : Option Int
  /-- A field of type `int | None`. -/
  optInt : Option (Option Int)
  /-- A field of type `time`. -/
  time : Option TimeOfDay
  shown_text : ∀ s ∈ text, shown = s
  falsy_text : ∀ s ∈ text, falsy = decide (s = "")

abbrev Args := List (String × Arg)

def orRaise {α : Type} (e : PlannerError) : Option α → Except PlannerError α
  | some a => .ok a
  | none => .error e

theorem orRaise_ok {α : Type} {err : PlannerError} {o : Option α} {a : α} (h : orRaise err o = .ok a) : o = some a := by
  cases o with
  | none => cases h
  | some b => rw [Except.ok.inj h]

namespace Args

variable (args : Args) (name : String)

/-- `args.get(name) or …` -/
def given? : Option Arg := (args.lookup name).filter fun a => !a.falsy

/-- `args[name]` -/
def required : Except PlannerError Arg := orRaise .key (args.lookup name)

/-- `[str(a) for a in (args.get(name) or [])]` -/
def strings : Except PlannerError (List String) :=
  match args.given? name with
  | some a => orRaise .value a.items
  | none => .ok []

/-- `(args.get(name) or default).strip()` -/
def stripped (default : String) : Except PlannerError String :=
  match args.given? name with
  | some a => (orRaise .value a.text).map strip
  | none => .ok (strip default)

/-- `_opt_date(args.get(name))` -/
def optDate : Except PlannerError (Option Date) :=
  match args.given? name with
  | some a => (orRaise .value (Date.fromisoformat a.shown)).map some
  | none => .ok none

/-- `_req_date(args[name])` -/
def reqDate : Except PlannerError Date :=
  (args.required name).bind fun a => orRaise .value (Date.fromisoformat a.shown)

/-- `args[name]`, as a field of type `str`. -/
def requiredText : Except PlannerError String := (args.required name).bind fun a => orRaise .value a.text

/-- `args.get(name)`, as a field of type `int | None`. -/
def optInt : Except PlannerError (Option Int) :=
  match args.lookup name with
  | some a => orRaise .value a.optInt
  | none => .ok none

/-- `args.get(name) or None`, as a field of type `time | None`. -/
def optTime : Except PlannerError (Option TimeOfDay) :=
  match args.given? name with
  | some a => (orRaise .value a.time).map some
  | none => .ok none

end Args

inductive Tool
  | getTeamLoad
  | findAssignees
  | listPeople
  | listProjects
  | captureTask
  | planProject
  | setVacation
  | replan
  | assignTask
  | markTaskDone
  deriving DecidableEq, Repr

def Tool.ofName : String → Option Tool
  | "get_team_load" => some .getTeamLoad
  | "find_assignees" => some .findAssignees
  | "list_people" => some .listPeople
  | "list_projects" => some .listProjects
  | "capture_task" => some .captureTask
  | "plan_project" => some .planProject
  | "set_vacation" => some .setVacation
  | "replan" => some .replan
  | "assign_task" => some .assignTask
  | "mark_task_done" => some .markTaskDone
  | _ => none

/-- `_WRITE_TOOLS`. -/
def Tool.isWrite : Tool → Bool
  | .getTeamLoad => false
  | .findAssignees => false
  | .listPeople => false
  | .listProjects => false
  | _ => true

/-- Who writes, the services at hand, and the texts that only the model reads:
what the read tools report, how a plan and a replan are told, how an exception. -/
structure ToolContext where
  tables : CharTables
  solver : GreedySolver
  isAdmin : Bool
  actor : Option PersonRecord
  today : Date
  taskSink : Option TaskSink
  projectSink : Option ProjectSink
  report : Tool → Args → Store → Except PlannerError String
  planText : AddProjectResult → String
  replanText : Option PlanResult → String
  errorText : PlannerError → String

/-- What a call leaves in the tool box, what it says or raises, and the task it
has captured. -/
structure ToolOutcome where
  box : ToolBox
  said : Except PlannerError String
  captured : Option CaptureResult := none

def adminOnlyMsg : String := "Только админ может менять план."

/-- Blanks and case do not tell two titles apart. -/
def titleKey (U : CharTables) (title : String) : List Char :=
  U.casefold (List.intercalate [' '] (words title.toList))

section Capture

/-- The partial arguments, for the buttons. -/
def pendingCaptureOf (args : Args) (assignees : List String) (project : String) (deadline : Option Date) :
    Except PlannerError PendingCapture := do
  let title ← args.stripped "title" "задача"
  let skills ← args.strings "required_skills"
  pure ⟨title, assignees, project, deadline.map Date.isoformat, (args.optInt "est_hours").toOption, skills⟩

def captureIntent (args : Args) (assignees : List String) (project : String) (deadline : Option Date) :
    Except PlannerError CaptureTaskIntent := do
  let skills ← args.strings "required_skills"
  let title ← args.requiredText "title"
  let timeStart ← args.optTime "time_start"
  let estHours ← args.optInt "est_hours"
  (CaptureFields.validate ⟨title, assignees, some project, deadline, timeStart, estHours, skills⟩).mapError
    fun _ => .value

/-- The names assigned in the end, and what was raised on the way. -/
def mergeAssignees (taskId : UUID) (duration : Int) :
    List String → (assigned : List String) → UseCase (List String × Except PlannerError Unit)
  | [], assigned => pure (assigned, .ok ())
  | name :: rest, assigned => do
    match ← (Repo.getPersonByName name).attempt with
    | .error e => pure (assigned, .error e)
    | .ok none => mergeAssignees taskId duration rest assigned
    | .ok (some person) =>
      if person.name ∈ assigned then mergeAssignees taskId duration rest assigned
      else do
        match ← (Repo.assignTask taskId person.id duration).attempt with
        | .error e => pure (assigned, .error e)
        | .ok _ => mergeAssignees taskId duration rest (assigned ++ [person.name])

/-- Another call with the title of a captured task. -/
def ToolBox.merge (box : ToolBox) (key : List Char) (entry : CaptureEntry) (assigned : List String)
    (r : Except PlannerError Unit) : ToolOutcome :=
  let box := { box with capturesByKey := box.capturesByKey.insert key { entry with assignees := assigned } }
  match r with
  | .error e => ⟨box, .error e, none⟩
  | .ok _ => ⟨{ box with
      capturedReplies := box.capturedReplies.set entry.idx
        (formatCaptureConfirmation entry.title entry.project assigned entry.deadlineIso) },
      .ok "Это та же задача — добавил исполнителя, новую не создаю.", none⟩

def CaptureResult.confirmation (result : CaptureResult) : String :=
  formatCaptureConfirmation result.taskTitle result.projectTitle result.assigneeNames result.deadlineIso

/-- A duplicate leaves nothing. -/
def ToolBox.capture (box : ToolBox) (key : List Char) (result : CaptureResult) : ToolOutcome :=
  if result.isDuplicate then ⟨box, .ok (captureReplyText result), none⟩
  else
    ⟨{ box with
      capturedNotionUrls := box.capturedNotionUrls ++ (result.notionUrl.filter (· ≠ "")).toList
      capturedReplies := box.capturedReplies ++ [result.confirmation]
      capturesByKey := box.capturesByKey.insert key ⟨result.taskId, result.durationHours, result.taskTitle,
        result.projectTitle, result.deadlineIso, result.assigneeNames, box.capturedReplies.length⟩ },
      .ok result.confirmation, some result⟩

def captureTool (ctx : ToolContext) (args : Args) (box : ToolBox) : UseCase ToolOutcome := do
  let assignees ← .ofExcept (args.strings "assignees")
  let project ← .ofExcept (args.stripped "project" "")
  let deadline ← .ofExcept (args.optDate "deadline")
  if assignees = [] ∨ project = "" ∨ deadline = none then do
    let pending ← .ofExcept (pendingCaptureOf args assignees project deadline)
    pure ⟨{ box with pendingCapture := some pending },
      .ok ("Недостающие ключевые поля запрошены у менеджера кнопками — " ++
        "задача будет поставлена после выбора, отвечать ничего не нужно."), none⟩
  else do
    let title ← .ofExcept (args.required "title")
    let key := titleKey ctx.tables title.shown
    match box.capturesByKey.get? key with
    | some entry => do
      let (assigned, r) ← mergeAssignees entry.taskId entry.duration assignees entry.assignees
      pure (box.merge key entry assigned r)
    | none => do
      let intent ← .ofExcept (captureIntent args assignees project deadline)
      let result ← captureTask ctx.tables ctx.taskSink intent ctx.actor
      pure (box.capture key result)

end Capture

section Others

variable (ctx : ToolContext) (args : Args) (box : ToolBox)

/-- `AddProjectIntent(…)`, with its two templates. -/
def planIntent : Except PlannerError AddProjectIntent := do
  let title ← args.requiredText "title"
  let templateCode ← args.requiredText "template"
  let deadline ← args.optDate "deadline"
  if templateCode = "standard" ∨ templateCode = "lite" then pure { title, templateCode, deadline }
  else .error .value

def notionUrl (pageId : String) : String :=
  "https://www.notion.so/" ++ String.ofList (pageId.toList.filter (· ≠ '-'))

/-- The proposal takes the place of an earlier one in the tool box, and so does the
answer that there is none. -/
def planTool : UseCase ToolOutcome := do
  let intent ← .ofExcept (planIntent args)
  match ← buildAddProjectReply ctx.solver intent ctx.actor ctx.today ctx.projectSink with
  | .ok result =>
    let url := (result.notionPageId.filter (· ≠ "")).map notionUrl
    pure ⟨{ box with
      lastProposedPvId := some result.planVersionId
      capturedNotionUrls := box.capturedNotionUrls ++ url.toList }, .ok (ctx.planText result), none⟩
  | .error text => pure ⟨{ box with lastProposedPvId := none }, .ok text, none⟩

def vacationIntent : Except PlannerError VacationIntent := do
  let person ← args.requiredText "person"
  let dayFrom ← args.reqDate "day_from"
  let dayTo ← args.reqDate "day_to"
  let capacityH ← match args.lookup "capacity_h" with
    | some a => orRaise .value a.int
    | none => pure 0
  pure ⟨person, dayFrom, dayTo, capacityH⟩

def vacationTool : UseCase ToolOutcome := do
  let intent ← .ofExcept (vacationIntent args)
  match ← (setVacation intent (ctx.actor.map PersonRecord.id) true).attempt with
  | .ok days => pure ⟨box, .ok ("Оформил отпуск " ++ intent.personName ++ ": " ++ intent.dayFrom.isoformat ++ "–" ++
      intent.dayTo.isoformat ++ " (" ++ toString days ++ " дн.). Запусти replan при необходимости."), none⟩
  | .error (.personNotFound _) =>
    pure ⟨box, .ok ("Не нашёл человека «" ++ intent.personName ++ "» — уточни имя."), none⟩
  | .error e => .raise e

def replanTool : UseCase ToolOutcome := do
  let plan ← buildReplanSummary ctx.solver ctx.today
  pure ⟨box, .ok (ctx.replanText plan), none⟩

def assignTool : UseCase ToolOutcome := do
  let taskRef ← .ofExcept (args.requiredText "task_ref")
  let person ← .ofExcept (args.requiredText "person")
  let text ← buildAssignReply ctx.tables taskRef person (ctx.actor.map PersonRecord.id)
  pure ⟨box, .ok text, none⟩

def markTool : UseCase ToolOutcome := do
  let taskRef := strip (((args.given? "task_ref").map Arg.shown).getD "")
  let tasks ← Repo.listTasksWithMeta
  match matchTasks ctx.tables taskRef tasks with
  | [] => pure ⟨box, .ok ("Не нашёл задачу «" ++ taskRef ++ "» — уточни название."), none⟩
  | [task] => do
    markTaskDone task.1 (ctx.actor.map PersonRecord.id) true
    pure ⟨box, .ok ("Отметил «" ++ task.2 ++ "» как выполненную."), none⟩
  | several => pure ⟨box, .ok ("Нашёл несколько задач (" ++
      joined ", " ((several.map Prod.snd).dedup.mergeSort fun a b => a ≤ b) ++ ") — уточни, какую отметить."), none⟩

/-- The four tools that only read. -/
def readTool (tool : Tool) : UseCase ToolOutcome := do
  let text ← .read (ctx.report tool args)
  let text ← .ofExcept text
  pure ⟨box, .ok text, none⟩

def Tool.executor : Tool → UseCase ToolOutcome
  | .captureTask => captureTool ctx args box
  | .planProject => planTool ctx args box
  | .setVacation => vacationTool ctx args box
  | .replan => replanTool ctx box
  | .assignTask => assignTool ctx args box
  | .markTaskDone => markTool ctx args box
  | tool => readTool ctx args box tool

/-- Never raises. -/
def ToolBox.execute (name : String) : UseCase ToolOutcome :=
  match Tool.ofName name with
  | none => pure ⟨box, .ok ("Неизвестный инструмент " ++ name ++ "."), none⟩
  | some tool =>
    if tool.isWrite ∧ !ctx.isAdmin then pure ⟨box, .ok adminOnlyMsg, none⟩
    else do
      match ← (tool.executor ctx args box).attempt with
      | .ok outcome => pure outcome
      | .error e => pure ⟨box, .error e, none⟩

end Others

/-- What the model reads. -/
def ToolOutcome.text (ctx : ToolContext) (name : String) (outcome : ToolOutcome) : String :=
  match outcome.said with
  | .ok text => text
  | .error e => "Ошибка инструмента " ++ name ++ ": " ++ ctx.errorText e

end Planner
