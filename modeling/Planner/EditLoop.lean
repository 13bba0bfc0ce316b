import Planner.Capture

/-! The edit loop of a chat, with every kind of intent. What an intent has left
in the state of the chat stays when a later one raises. -/

namespace Planner

/-- The state machine of a chat; `pendingPvId` is the stashed proposal. -/
structure ChatState where
  waiting : Bool
  pendingPvId : Option UUID
  deriving DecidableEq, Repr

def ChatState.cleared : ChatState := ⟨false, none⟩

/-- `WRITE_KINDS`. -/
def Intent.isWrite : Intent → Bool
  | .addProject _ => true
  | .vacation _ => true
  | .confirm _ => true
  | .assign _ _ => true
  | .captureTask _ => true
  | .load _ => false
  | .whatIf _ => false
  | .clarify _ => false

def canExecute (intent : Intent) (isAdmin : Bool) : Bool := !intent.isWrite || isAdmin

def Intent.isClarify : Intent → Bool
  | .clarify _ => true
  | _ => false

/-- The real actions, or else the first question. -/
def intentsToDispatch (intents : List Intent) : List Intent :=
  let real := intents.filter fun i => !i.isClarify
  if real = [] then intents.take 1 else real

/-- A message, and what the parser makes of it. -/
structure EditMessage where
  text : String
  intents : List Intent
  deriving DecidableEq, Repr

section Loop

variable (U : CharTables) (chat : Chat)

/-- A whole-message confirmation. -/
def isConfirmPhrase (text : String) : Bool :=
  let bare := ((U.casefold (stripChars text.toList)).reverse.dropWhile fun c => oneOf "!. " c).reverse
  ["ок", "окей", "ok", "оk", "да", "ага", "подтверждаю", "подтверди", "подтвердить", "фиксируй", "зафиксируй",
    "го", "yes"].any fun phrase => phrase.toList = bare

/-- Answers the proposal, if the intent has led to one. Loads, vacations and
what-ifs only answer a text here. -/
def dispatchIntent (lastPvId : Option UUID) (fsm : ChatState) (intent : Intent) :
    UseCase (ChatState × Option UUID) :=
  if canExecute intent chat.isAdmin then
    match intent, chat.actor with
    | .confirm pvId, _ => do
      let (_, committed) ← confirmLatest chat.taskSink (pvId.or (lastPvId.or fsm.pendingPvId)) chat.actor
      pure (if committed then .cleared else fsm, none)
    | .captureTask intent, _ => do
      let _ ← captureTask U chat.taskSink intent chat.actor
      pure (fsm, none)
    | .assign taskRef personName, some actor => do
      let _ ← buildAssignReply U taskRef personName (some actor.id)
      pure (fsm, none)
    | .addProject intent, some actor => do
      match ← buildAddProjectReply chat.solver intent (some actor) chat.today chat.projectSink with
      | .ok result => pure ({ fsm with pendingPvId := some result.planVersionId }, some result.planVersionId)
      | .error _ => pure (fsm, none)
    | _, _ => pure (fsm, none)
  else pure (fsm, none)

/-- Each in order, until one raises. -/
def dispatchAll (lastPvId : Option UUID) : List Intent → ChatState → (lastPv : Option UUID) →
    UseCase (ChatState × Except PlannerError (Option UUID))
  | [], fsm, lastPv => pure (fsm, .ok lastPv)
  | intent :: rest, fsm, lastPv => do
    match ← (dispatchIntent U chat lastPvId fsm intent).attempt with
    | .ok (fsm, pv) => dispatchAll lastPvId rest fsm (pv.or lastPv)
    | .error e => pure (fsm, .error e)

/-- Without an agent. -/
def handleText (lastPvId : Option UUID) (fsm : ChatState) (message : EditMessage) :
    UseCase (ChatState × Except PlannerError (Option UUID)) :=
  if chat.actor.isNone && !chat.isAdmin then pure (fsm, .ok none)
  else
    match if isConfirmPhrase U message.text then fsm.pendingPvId.or lastPvId else none with
    | some pending => do
      match ← (confirmPending chat.taskSink pending chat.actor).attempt with
      | .ok _ => pure (.cleared, .ok none)
      | .error e => pure (fsm, .error e)
    | none => dispatchAll U chat lastPvId (intentsToDispatch message.intents) fsm none

def retireReplaced (oldPvId : Option UUID) (newPvId : UUID) : UseCase Unit :=
  match oldPvId with
  | some old => if old = newPvId then pure () else retirePlan old
  | none => pure ()

/-- A fresh proposal retires the one being edited and re-arms the loop. -/
def handleEdit (fsm : ChatState) (message : EditMessage) : UseCase (ChatState × Except PlannerError Unit) :=
  if strip message.text = "" then pure (fsm, .ok ())
  else do
    let oldPvId := fsm.pendingPvId
    let (fsm, r) ← handleText U chat oldPvId fsm message
    match r with
    | .error e => pure (fsm, .error e)
    | .ok none => pure (fsm, .ok ())
    | .ok (some newPvId) => do
      match ← (retireReplaced oldPvId newPvId).attempt with
      | .error e => pure (fsm, .error e)
      | .ok _ => pure (⟨true, some newPvId⟩, .ok ())

end Loop

end Planner
