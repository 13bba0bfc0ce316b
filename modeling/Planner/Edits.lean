import Planner.Repo

/-! What changes a plan after it was proposed: reassignments and date edits from
the board, finished tasks, vacations. -/

namespace Planner

/-- A form field that is empty, does not parse, or carries a value. -/
inductive FormField (α : Type)
  | blank
  | bad
  | value (a : α)
  deriving DecidableEq, Repr

/-- `POST /schedule/reassign`. -/
def reassign (isAdmin : Bool) (taskId personId : FormField UUID) (actorId : Option UUID) :
    UseCase Unit :=
  if !isAdmin then .raise (.http 403 "Только админ.")
  else
    match personId, taskId with
    | .blank, _ => pure ()
    | .value pid, .value tid => do
      let people ← Repo.listPeople
      if people.all fun p => p.id ≠ pid then .raise (.http 404 "Не нашёл такого человека.")
      else if ← Repo.setTaskAssignee tid pid then do
        let _ ← Repo.reassignInPlan tid pid
        Repo.addAudit actorId "reassign_task" "task" (some tid) (some [("person_id", .text (toString pid))])
      else pure ()
    | _, _ => .raise (.http 400 "bad id")

def FormField.toDate : FormField Date → UseCase (Option Date)
  | .blank => pure none
  | .bad => .raise .value
  | .value d => pure (some d)

/-- `POST /plan/…/task/…/edit`. -/
def editTask (isAdmin : Bool) (taskId : UUID) (start end_ : FormField Date) (actorId : Option UUID) :
    UseCase Unit :=
  if !isAdmin then .raise (.http 403 "Только админ.")
  else do
    let startD ← start.toDate
    let endD ← end_.toDate
    Repo.updateTaskSchedule taskId startD endD
    let _ ← Repo.updateScheduleInPlan taskId startD endD
    let text (d : Option Date) : AuditValue := .text ((d.map Date.isoformat).getD "")
    Repo.addAudit actorId "edit_task" "task" (some taskId) (some [("start", text startD), ("end", text endD)])

def taskStatusOf : String → Option TaskStatus
  | "not_done" => some .notDone
  | "done" => some .done
  | "preliminary" => some .preliminary
  | "confirmed" => some .confirmed
  | _ => none

/-- The tick on the project's card comes after it and only reads the tables. -/
def markTaskDone (taskId : UUID) (actorId : Option UUID) (isAdmin : Bool) (status : String := "done") :
    UseCase Unit :=
  if !isAdmin then .raise (.permission "Только админ может менять статус задачи.")
  else
    match taskStatusOf status with
    | none => .raise (.invalidStatus status)
    | some st => do
      Repo.setTaskStatus taskId st
      Repo.addAudit actorId "mark_task" "task" (some taskId) (some [("status", .text status)])

structure VacationIntent where
  personName : String
  dayFrom : Date
  dayTo : Date
  capacityH : Int := 0
  deriving DecidableEq, Repr

def maxVacationDays : Nat := 60
def minCapacityH : Int := 0
def maxCapacityH : Int := 12

/-- The checks of the input. -/
def validVacation (intent : VacationIntent) : Except PlannerError Unit :=
  let rangeDays := intent.dayTo - intent.dayFrom + 1
  if intent.dayTo < intent.dayFrom then
    .error (.invalidVacation "Дата начала отпуска позже даты окончания.")
  else if maxVacationDays < rangeDays then
    .error (.invalidVacation ("Слишком длинный период: " ++ toString rangeDays ++ " дней, максимум " ++
      toString maxVacationDays ++ "."))
  else if ¬ (minCapacityH ≤ intent.capacityH ∧ intent.capacityH ≤ maxCapacityH) then
    .error (.invalidVacation ("Ёмкость должна быть от " ++ toString minCapacityH ++ " до " ++
      toString maxCapacityH ++ " часов."))
  else .ok ()

/-- The `while day <= day_to` loop over the days that are left. -/
def upsertDays (personId : UUID) (capacityH : Int) : Nat → Date → UseCase Unit
  | 0, _ => pure ()
  | n + 1, day => do
    Repo.upsertDayOverride personId day capacityH (some "vacation")
    upsertDays personId capacityH n (day + 1)

def setVacation (intent : VacationIntent) (actorId : Option UUID) (isAdmin : Bool) : UseCase Nat :=
  if !isAdmin then .raise (.permission "Только админ может оформлять отпуск.")
  else do
    .ofExcept (validVacation intent)
    match ← Repo.getPersonByName intent.personName with
    | none => .raise (.personNotFound intent.personName)
    | some person =>
      let days := intent.dayTo - intent.dayFrom + 1
      upsertDays person.id intent.capacityH days intent.dayFrom
      Repo.addAudit actorId "set_vacation" "day_override" (some person.id)
        (some [("from", .text intent.dayFrom.isoformat), ("to", .text intent.dayTo.isoformat),
          ("capacity_h", .number intent.capacityH)])
      pure days

end Planner
