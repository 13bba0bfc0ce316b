import Planner.AddProject

/-! Confirming a proposed plan, the three ways a chat gets there, and the edit
loop that retires the plan it replaces. -/

namespace Planner

structure SinkTask where
  title : String
  assignees : List String
  project : Option String
  deadline : Option Date
  timeStart : Option TimeOfDay := none
  deriving DecidableEq, Repr

/-- The board of an external service. Cards are numbered within one mirror. -/
structure TaskSink where
  isNoop : Bool := false
  pushTask : Nat → SinkTask → Except PlannerError (Option String)

structure ConfirmResult where
  plan : PlanVersionRecord
  mirrorTotal : Nat := 0
  mirrorFailed : Nat := 0
  deriving DecidableEq, Repr

/-- How many cards arrived before the sink raised or the cards ran out. -/
def pushTasks (sink : TaskSink) : Nat → List SinkTask → Nat
  | _, [] => 0
  | n, card :: cards =>
    match sink.pushTask n card with
    | .error _ => 0
    | .ok none => pushTasks sink (n + 1) cards
    | .ok (some _) => pushTasks sink (n + 1) cards + 1

def boardCards (pv : PlanVersionRecord) : UseCase (List SinkTask) := do
  let project ← Repo.getProject pv.projectId
  let names ← Repo.getTaskNameMap
  let people ← Repo.listPeople
  let people := OrdDict.ofList (people.map fun p => (p.id, p.name))
  pure (pv.payload.assignments.map fun a =>
    { title := names.getD a.taskId "Задача"
      assignees := (people.get? a.personId).toList
      project := some ((project.map ProjectRecord.title).getD "Проект")
      deadline := some a.endDate })

/-- Best effort; answers how many cards failed, and of how many. -/
def mirrorTasks (sink : Option TaskSink) (pv : PlanVersionRecord) : UseCase (Nat × Nat) :=
  match sink with
  | none => pure (0, 0)
  | some sink =>
    if sink.isNoop then pure (0, 0)
    else do
      match ← (boardCards pv).attempt with
      | .ok cards => pure (cards.length - pushTasks sink 0 cards, cards.length)
      | .error _ => pure (0, 0)

def confirmPlan (sink : Option TaskSink) (planVersionId : UUID) (actor : Option PersonRecord) :
    UseCase ConfirmResult := do
  match ← Repo.getPlanVersion planVersionId with
  | none => .raise (.planNotFound planVersionId)
  | some pv =>
    if ← Repo.transitionPlanStatus planVersionId .proposed .committed then
      Repo.addAudit (actor.map PersonRecord.id) "confirm_plan" "plan_version" (some planVersionId) none
      Repo.setProjectStatus pv.projectId .committed
      let (failed, total) ← mirrorTasks sink pv
      pure ⟨{ pv with status := .committed }, total, failed⟩
    else
      -- lost the race or never proposed
      let current ← Repo.getPlanVersion planVersionId
      .raise (.planNotProposed (current.map PlanVersionRecord.status))

def confirmReplyText (result : ConfirmResult) : String :=
  "✅ План зафиксирован." ++
    if result.mirrorFailed ≠ 0 then
      "\n⚠️ Notion: не удалось отразить " ++ toString result.mirrorFailed ++ " из " ++
        toString result.mirrorTotal ++ " задач."
    else ""

/-- What the chat answers: `already` stands for a plan that is gone or decided. -/
def confirmAnswer (already : String) (p : UseCase ConfirmResult) : UseCase (String × Bool) := do
  match ← p.attempt with
  | .ok result => pure (confirmReplyText result, true)
  | .error (.planNotFound _) => pure (already, false)
  | .error (.planNotProposed _) => pure (already, false)
  | .error e => .raise e

/-- The button. -/
def handleConfirm (isAdmin : Bool) (sink : Option TaskSink) (pvId : UUID) (actor : Option PersonRecord) :
    UseCase (String × Bool) :=
  if isAdmin then confirmAnswer "Этот план уже зафиксирован." (confirmPlan sink pvId actor)
  else pure ("Только админ может подтверждать план.", false)

/-- A bare «ок» for the proposal the chat has stashed. -/
def confirmPending (sink : Option TaskSink) (pending : UUID) (actor : Option PersonRecord) :
    UseCase (String × Bool) :=
  confirmAnswer "Этот план уже зафиксирован." (confirmPlan sink pending actor)

/-- A parsed confirmation; the flag says that something was committed. -/
def confirmLatest (sink : Option TaskSink) (target : Option UUID) (actor : Option PersonRecord) :
    UseCase (String × Bool) :=
  match target, actor with
  | none, _ => pure ("Нет плана на подтверждение — сначала предложи план.", false)
  | some _, none => pure ("База данных не подключена.", false)
  | some target, some actor =>
    confirmAnswer "План не найден или уже зафиксирован." (confirmPlan sink target (some actor))

/-- The intents that touch a plan's life. -/
inductive ChatIntent
  | addProject (intent : AddProjectIntent)
  | confirm (planVersionId : Option UUID)
  deriving DecidableEq, Repr

/-- Who writes, and the services at hand. -/
structure Chat where
  isAdmin : Bool
  actor : Option PersonRecord
  solver : GreedySolver
  today : Date
  taskSink : Option TaskSink
  projectSink : Option ProjectSink

/-- Each in order; `lastPvId` is the plan being edited, `pending` the stashed
proposal. Answers the last proposal made. -/
def dispatchIntents (chat : Chat) (lastPvId : Option UUID) : List ChatIntent → (lastPv pending : Option UUID) →
    UseCase (Option UUID)
  | [], lastPv, _ => pure lastPv
  | .confirm pvId :: rest, lastPv, pending =>
    if chat.isAdmin then do
      let (_, committed) ← confirmLatest chat.taskSink (pvId.or (lastPvId.or pending)) chat.actor
      dispatchIntents chat lastPvId rest lastPv (if committed then none else pending)
    else dispatchIntents chat lastPvId rest lastPv pending
  | .addProject intent :: rest, lastPv, pending =>
    if chat.isAdmin ∧ chat.actor.isSome then do
      match ← buildAddProjectReply chat.solver intent chat.actor chat.today chat.projectSink with
      | .ok result => dispatchIntents chat lastPvId rest (some result.planVersionId) (some result.planVersionId)
      | .error _ => dispatchIntents chat lastPvId rest lastPv pending
    else dispatchIntents chat lastPvId rest lastPv pending

/-- A fresh proposal retires the one it replaces. -/
def retirePlan (oldPvId : UUID) : UseCase Unit := do
  let oldPv ← Repo.getPlanVersion oldPvId
  let superseded ← Repo.transitionPlanStatus oldPvId .proposed .superseded
  match oldPv with
  | some pv => if superseded then Repo.setProjectStatus pv.projectId .cancelled else pure ()
  | none => pure ()

/-- The edit loop. -/
def handleEditText (chat : Chat) (intents : List ChatIntent) (oldPvId : Option UUID) : UseCase Unit := do
  let newPvId ← dispatchIntents chat oldPvId intents none oldPvId
  match oldPvId, newPvId with
  | some old, some new => if old = new then pure () else retirePlan old
  | _, _ => pure ()

/-- Any other message. -/
def handleMessage (chat : Chat) (intents : List ChatIntent) (pending : Option UUID) : UseCase Unit := do
  let _ ← dispatchIntents chat none intents none pending
  return ()

end Planner
