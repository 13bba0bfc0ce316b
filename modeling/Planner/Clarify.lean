import Planner.AgentTurn

/-! The buttons that ask for what a captured task lacks. A partial capture waits
in the state of the chat; every answer completes it by one field, whatever has
happened to it since the keyboard was sent. -/

namespace Planner

/-- The states of the bot besides the idle one. -/
inductive FsmStep
  | editing
  | projectName
  | deadlineText
  deriving DecidableEq, Repr

/-- The arguments of a capture, as far as they are there. -/
structure PartialCapture where
  title : Option String := none
  assignees : List String := []
  project : String := ""
  deadline : Option String := none
  estHours : Option (Option Int) := some none
  requiredSkills : List String := []
  deriving DecidableEq, Repr

/-- The state machine of a chat with the data of the dialogue. -/
structure Fsm where
  step : Option FsmStep := none
  pendingPvId : Option UUID := none
  capture : PartialCapture := {}
  projOptions : List String := []
  asgOptions : List String := []
  deriving DecidableEq, Repr

/-- What the edit loop sees. -/
def Fsm.chat (fsm : Fsm) : ChatState := ⟨fsm.step = some .editing, fsm.pendingPvId⟩

inductive KeyField
  | project
  | assignee
  | deadline
  deriving DecidableEq, Repr

/-- What the press of a button sends. -/
inductive Press
  | project (idx : Nat)
  | assignee (idx : Nat)
  | deadline (days : Nat)
  | newProject
  | deadlineText
  deriving DecidableEq, Repr

structure Button where
  text : String
  press : Press
  deriving DecidableEq, Repr

abbrev Keyboard := List (List Button)

inductive ClarifyAnswer
  | text (text : String)
  | alert (text : String)
  | question (text : String) (keyboard : Keyboard)
  | captured (result : CaptureResult)
  deriving DecidableEq, Repr

/-- `dict(pending)`. -/
def PendingCapture.args (pending : PendingCapture) : PartialCapture :=
  ⟨some pending.title, pending.assignees, pending.project, pending.deadline, pending.estHours, pending.requiredSkills⟩

namespace Clarify

def maxOptions : Nat := 12

/-- In the order they are asked for. -/
def missing (args : PartialCapture) : List KeyField :=
  (if strip args.project = "" then [.project] else []) ++ (if args.assignees = [] then [.assignee] else []) ++
    (if args.deadline.getD "" = "" then [.deadline] else [])

def optionsKb (options : List String) (press : Nat → Press) (extra : List Button) : Keyboard :=
  ((options.take maxOptions).zipIdx.map fun o => [⟨o.1, press o.2⟩]) ++ extra.map fun b => [b]

def deadlineKb : Keyboard := [
  [⟨"Сегодня", .deadline 0⟩, ⟨"Завтра", .deadline 1⟩],
  [⟨"+3 дня", .deadline 3⟩, ⟨"+неделя", .deadline 7⟩],
  [⟨"Ввести дату", .deadlineText⟩]]

end Clarify

/-- `int()`. -/
def CharTables.int (U : CharTables) (cs : List Char) : Option Int :=
  let (sign, ds) := match stripChars cs with
    | '-' :: ds => ((-1 : Int), ds)
    | '+' :: ds => (1, ds)
    | ds => (1, ds)
  let groups := ds.splitOn '_'
  if groups.all fun g => g ≠ [] ∧ g.all fun c => (U.digit c).isSome then some (sign * (U.value groups.flatten : Nat)) else none

namespace Clarify

/-- `date(year, month, day)`; its arguments are machine integers. -/
def dateOf (year month day : Int) : Except PlannerError (Option Date) :=
  if [year, month, day].all fun n => -2 ^ 31 ≤ n ∧ n < 2 ^ 31 then
    .ok (if 0 ≤ year ∧ 0 ≤ month ∧ 0 ≤ day then Date.ofYmd? year.toNat month.toNat day.toNat else none)
  else .error .overflow

section Parse

variable (U : CharTables) (today : Date)

/-- An ISO date, or day and month with or without a year. -/
def parseDate (text : String) : Except PlannerError (Option Date) :=
  let raw := strip text
  match Date.fromisoformat raw with
  | some d => .ok (some d)
  | none =>
    match (raw.toList.splitOn '.').map U.int with
    | [some day, some month] => dateOf today.toYmd.1 month day
    | [some day, some month, some year] => dateOf year month day
    | _ => .ok none

end Parse

/-- The intent of a complete capture. -/
def intentOf (args : PartialCapture) : Except PlannerError CaptureTaskIntent := do
  let title ← orRaise .key args.title
  let deadline ← match args.deadline.filter (· ≠ "") with
    | some d => (orRaise .value (Date.fromisoformat d)).map some
    | none => pure none
  let estHours ← orRaise .value args.estHours
  (CaptureFields.validate ⟨title, args.assignees, some args.project, deadline, none, estHours, args.requiredSkills⟩).mapError
    fun _ => .value

section Flow

variable (U : CharTables) (chat : Chat)

/-- Asks for the first field that is missing. -/
def sendFieldKeyboard (args : PartialCapture) (fsm : Fsm) : UseCase (Fsm × Except PlannerError ClarifyAnswer) :=
  match missing args with
  | [] => pure (fsm, .error .key)
  | .project :: _ => do
    match ← Repo.listProjects.attempt with
    | .error e => pure (fsm, .error e)
    | .ok projects =>
      let options := projects.map ProjectRecord.title
      pure ({ fsm with projOptions := options, step := none },
        .ok (.question "В какой проект записать задачу?" (optionsKb options .project [⟨"➕ Новый проект", .newProject⟩])))
  | .assignee :: _ => do
    match ← Repo.listPeople.attempt with
    | .error e => pure (fsm, .error e)
    | .ok people =>
      let options := people.map PersonRecord.name
      pure ({ fsm with asgOptions := options, step := none },
        .ok (.question "Кто исполнитель?" (optionsKb options .assignee [])))
  | .deadline :: _ => pure ({ fsm with step := none }, .ok (.question "Какой дедлайн?" deadlineKb))

/-- Takes the place of a capture that waits. -/
def startCaptureClarify (pending : PendingCapture) (fsm : Fsm) : UseCase (Fsm × Except PlannerError ClarifyAnswer) :=
  sendFieldKeyboard pending.args { fsm with capture := pending.args }

/-- The state is cleared before anything else. -/
def finalize (args : PartialCapture) : UseCase (Fsm × Except PlannerError ClarifyAnswer) :=
  if chat.isAdmin then do
    match ← (Program.ofExcept (intentOf args) >>= fun intent =>
      captureTask U chat.taskSink intent chat.actor).attempt with
    | .ok result => pure ({}, .ok (.captured result))
    | .error e => pure ({}, .error e)
  else pure ({}, .ok (.text "Только админ может ставить задачи."))

def afterFill (args : PartialCapture) (fsm : Fsm) : UseCase (Fsm × Except PlannerError ClarifyAnswer) :=
  if missing args = [] then finalize U chat args
  else sendFieldKeyboard args { fsm with capture := args }

/-- The index counts in the options that were sent last. -/
def pickFromOptions (options : List String) (idx : Nat) (fill : String → PartialCapture) (fsm : Fsm) :
    UseCase (Fsm × Except PlannerError ClarifyAnswer) :=
  match options[idx]? with
  | none => pure (fsm, .ok (.alert "Вариант не найден."))
  | some opt => afterFill U chat (fill opt) fsm

def handlePickProject (idx : Nat) (fsm : Fsm) : UseCase (Fsm × Except PlannerError ClarifyAnswer) :=
  pickFromOptions U chat fsm.projOptions idx (fun opt => { fsm.capture with project := opt }) fsm

def handlePickAssignee (idx : Nat) (fsm : Fsm) : UseCase (Fsm × Except PlannerError ClarifyAnswer) :=
  pickFromOptions U chat fsm.asgOptions idx (fun opt => { fsm.capture with assignees := [opt] }) fsm

def handleNewProject (fsm : Fsm) : UseCase (Fsm × Except PlannerError ClarifyAnswer) :=
  pure ({ fsm with step := some .projectName }, .ok (.text "Напиши название нового проекта одним сообщением."))

def handlePickDeadline (days : Nat) (fsm : Fsm) : UseCase (Fsm × Except PlannerError ClarifyAnswer) :=
  afterFill U chat { fsm.capture with deadline := some (Date.isoformat (chat.today + days)) } fsm

def handleDeadlineText (fsm : Fsm) : UseCase (Fsm × Except PlannerError ClarifyAnswer) :=
  pure ({ fsm with step := some .deadlineText }, .ok (.text "Напиши дату: 2026-06-21 или 21.06.2026."))

def handleTypedProject (text : String) (fsm : Fsm) : UseCase (Fsm × Except PlannerError ClarifyAnswer) :=
  afterFill U chat { fsm.capture with project := strip text } fsm

def handleTypedDeadline (text : String) (fsm : Fsm) : UseCase (Fsm × Except PlannerError ClarifyAnswer) :=
  match parseDate U chat.today text with
  | .error e => pure (fsm, .error e)
  | .ok none => pure (fsm, .ok (.text "Не понял дату. Формат: 2026-06-21 или 21.06.2026."))
  | .ok (some d) => afterFill U chat { fsm.capture with deadline := some d.isoformat } fsm

def handlePress (press : Press) (fsm : Fsm) : UseCase (Fsm × Except PlannerError ClarifyAnswer) :=
  match press with
  | .project idx => handlePickProject U chat idx fsm
  | .assignee idx => handlePickAssignee U chat idx fsm
  | .deadline days => handlePickDeadline U chat days fsm
  | .newProject => handleNewProject fsm
  | .deadlineText => handleDeadlineText fsm

end Flow

end Clarify

end Planner
