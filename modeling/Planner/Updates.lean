import Planner.Clarify

/-! Updates as the dispatcher hands them to the handlers. The sender is resolved
first; the state of his chat decides along with the update which handler takes it. -/

namespace Planner

/-- Who may do what: the configured admins and team chat, and `people.tg_user_id`. -/
structure Gate where
  adminIds : List Int
  teamChatId : Option Int
  tgUserIds : List (Int × UUID)

structure Sender where
  userId : Option Int
  chatId : Option Int

structure Actor where
  isAdmin : Bool
  record : Option PersonRecord
  deriving DecidableEq, Repr

def Repo.getPersonByTgId (gate : Gate) (tgUserId : Int) : UseCase (Option PersonRecord) :=
  .read fun s => (gate.tgUserIds.lookup tgUserId).bind fun id => (s.people.get? id).map (PersonRow.record id)

/-- A known person has full rights, and so has everyone in the team chat. -/
def resolveActor (gate : Gate) (sender : Sender) : UseCase Actor := do
  let inTeamChat := gate.teamChatId.isSome && sender.chatId == gate.teamChatId
  match sender.userId with
  | none => pure ⟨inTeamChat, none⟩
  | some id => do
    let record ← Repo.getPersonByTgId gate id
    pure ⟨gate.adminIds.contains id || record.isSome || inTeamChat, record⟩

/-- The services behind the bot, and the texts that only the model reads. -/
structure Bot where
  tables : CharTables
  gate : Gate
  solver : GreedySolver
  taskSink : Option TaskSink
  projectSink : Option ProjectSink
  report : Tool → Args → Store → Except PlannerError String
  planText : AddProjectResult → String
  replanText : Option PlanResult → String
  errorText : PlannerError → String

inductive Command
  | start
  | task
  | load
  | vacation
  | replan
  | other
  deriving DecidableEq, Repr

inductive Event
  | message (command : Option Command) (text : String)
  | voice (transcript : String)
  | confirm (pvId : UUID)
  | edit (pvId : UUID)
  | press (press : Press)
  deriving DecidableEq, Repr

/-- `addressed` tells whether a group message is meant for the bot, `agent` what
the model answers to the agent, if there is one; `fail` when the database does not answer. -/
structure Update where
  sender : Sender
  today : Date
  addressed : Bool := true
  event : Event
  agent : Option (List (AgentMessage ToolUse) → Except String (Response ToolUse))
  parseIntents : String → ChatContext → Except ParseError (List Intent)
  parse : String → ChatContext → Except ParseError Intent
  recentMessages : List String
  fail : Nat → Bool

structure World where
  store : Store
  fsm : Fsm := {}

namespace Bot

variable (bot : Bot) (u : Update) (actor : Actor)

def chat : Chat := ⟨actor.isAdmin, actor.record, bot.solver, u.today, bot.taskSink, bot.projectSink⟩

def toolContext : ToolContext where
  tables := bot.tables
  solver := bot.solver
  isAdmin := actor.isAdmin
  actor := actor.record
  today := u.today
  taskSink := bot.taskSink
  projectSink := bot.projectSink
  report := bot.report
  planText := bot.planText
  replanText := bot.replanText
  errorText := bot.errorText

/-- Runs a handler; one that raises leaves the state of the chat alone. -/
def perform (p : UseCase Fsm) (w : World) : World :=
  match p.runFaulty (outage u.fail) 0 w.store with
  | (.ok fsm, _, store) => ⟨store, fsm⟩
  | (.error _, _, store) => { w with store }

def chatContext : UseCase ChatContext := do
  let people ← Repo.listPeople
  let projects ← Repo.listProjects
  pure { today := u.today
         knownPeople := people.map PersonRecord.name
         knownProjects := projects.map ProjectRecord.title
         recentMessages := u.recentMessages }

/-- The state of the chat after the edit loop has left `chat`, which it was handed
as armed: only `clear()` disarms it. -/
def fsmAfter (fsm : Fsm) (chat : ChatState) : Fsm :=
  if chat.waiting then { fsm with pendingPvId := chat.pendingPvId } else { pendingPvId := chat.pendingPvId }

/-- The turn of the agent. -/
def agentText (api : List (AgentMessage ToolUse) → Except String (Response ToolUse)) (text : String)
    (ctx : ChatContext) (w : World) : World × Option UUID :=
  match agentRun (turnEnv (bot.toolContext u actor) u.fail api) bot.tables text ctx { store := w.store } with
  | (.error _, turn) => ({ w with store := turn.store }, none)
  | (.ok reply, turn) =>
    match reply.clarify with
    | some pending => (perform u (Prod.fst <$> Clarify.startCaptureClarify pending w.fsm) { w with store := turn.store }, none)
    | none => (⟨turn.store, { w.fsm with pendingPvId := reply.proposedPvId.or w.fsm.pendingPvId }⟩, reply.proposedPvId)

/-- The intents of the parser, each in order. -/
def dispatchText (lastPvId : Option UUID) (intents : List Intent) (w : World) : World × Option UUID :=
  match (dispatchAll bot.tables (bot.chat u actor) lastPvId (intentsToDispatch intents) ⟨true, w.fsm.pendingPvId⟩
      none).runFaulty (outage u.fail) 0 w.store with
  | (.ok (chat, r), _, store) => (⟨store, fsmAfter w.fsm chat⟩, r.toOption.join)
  | (.error _, _, store) => ({ w with store }, none)

/-- Strangers are turned away before anything else. -/
def handleText (agent : Option (List (AgentMessage ToolUse) → Except String (Response ToolUse))) (lastPvId : Option UUID)
    (text : String) (w : World) : World × Option UUID :=
  if actor.record.isNone && !actor.isAdmin then (w, none)
  else
    match if isConfirmPhrase bot.tables text then w.fsm.pendingPvId.or lastPvId else none with
    | some pending => (perform u ((fun _ => {}) <$> confirmPending bot.taskSink pending actor.record) w, none)
    | none =>
      match (chatContext u).runFaulty (outage u.fail) 0 w.store with
      | (.error _, _, _) => (w, none)
      | (.ok ctx, _, _) =>
        match agent with
        | some api => bot.agentText u actor api text ctx w
        | none =>
          match u.parseIntents text ctx with
          | .error _ => (w, none)
          | .ok intents => bot.dispatchText u actor lastPvId intents w

/-- `text.partition(" ")[2].strip()`. -/
def argument (text : String) : String := strip (String.ofList ((text.toList.dropWhile (· ≠ ' ')).drop 1))

def handleTask (text : String) (w : World) : World :=
  if argument text = "" then w else (bot.handleText u actor u.agent none (argument text) w).1

def handleMentionOrDm (text : String) (w : World) : World :=
  let text := if text.toList.head? = some '@' then argument text else strip text
  if u.addressed ∧ text ≠ "" then (bot.handleText u actor u.agent none text w).1 else w

def handleVoice (transcript : String) (w : World) : World :=
  if u.addressed ∧ transcript ≠ "" then (bot.handleText u actor u.agent none transcript w).1 else w

/-- The edit loop works without the agent. -/
def handleEditText (text : String) (w : World) : World :=
  if strip text = "" then w
  else
    let oldPvId := w.fsm.pendingPvId
    match bot.handleText u actor none oldPvId (strip text) w with
    | (w, none) => w
    | (w, some newPvId) =>
      perform u ((fun _ => { w.fsm with step := some .editing, pendingPvId := some newPvId }) <$>
        retireReplaced oldPvId newPvId) w

def handleVacation (text : String) (w : World) : World :=
  if actor.record.isNone && !actor.isAdmin ∨ argument text = "" then w
  else
    match u.parse (argument text) { today := u.today }, actor.record with
    | .ok (.vacation intent), some record =>
      if actor.isAdmin then perform u ((fun _ => w.fsm) <$> setVacation intent (some record.id) actor.isAdmin) w else w
    | _, _ => w

def handleReplan (w : World) : World :=
  if actor.isAdmin then perform u ((fun _ => w.fsm) <$> buildReplanSummary bot.solver u.today) w else w

def handleEdit (pvId : UUID) (w : World) : World :=
  if actor.isAdmin then { w with fsm := { w.fsm with step := some .editing, pendingPvId := some pvId } } else w

/-- The answers to the dialogue come before every command but `/start`, and the
edit loop before the commands of the later routers. `/load` only reads. -/
def handleMessage (command : Option Command) (text : String) (w : World) : World :=
  match command, w.fsm.step with
  | some .start, _ => w
  | _, some .projectName =>
    perform u (Prod.fst <$> Clarify.handleTypedProject bot.tables (bot.chat u actor) text w.fsm) w
  | _, some .deadlineText =>
    perform u (Prod.fst <$> Clarify.handleTypedDeadline bot.tables (bot.chat u actor) text w.fsm) w
  | some .task, _ => bot.handleTask u actor text w
  | _, some .editing => bot.handleEditText u actor text w
  | none, none => bot.handleMentionOrDm u actor text w
  | some .vacation, none => handleVacation u actor text w
  | some .replan, none => bot.handleReplan u actor w
  | some .load, none => w
  | some .other, none => w

def handle (w : World) : World :=
  match u.event with
  | .message command text => bot.handleMessage u actor command text w
  | .voice transcript => bot.handleVoice u actor transcript w
  | .confirm pvId => perform u ((fun _ => w.fsm) <$> handleConfirm actor.isAdmin bot.taskSink pvId actor.record) w
  | .edit pvId => handleEdit actor pvId w
  | .press press => perform u (Prod.fst <$> Clarify.handlePress bot.tables (bot.chat u actor) press w.fsm) w

/-- The middleware, and then the handler. -/
def update (w : World) : World :=
  match (resolveActor bot.gate u.sender).runFaulty (outage u.fail) 0 w.store with
  | (.ok actor, _, _) => bot.handle u actor w
  | (.error _, _, _) => w

/-- Every sender has a state of his own in every chat. -/
structure Chats where
  store : Store
  fsm : Option Int → Option Int → Fsm := fun _ _ => {}

def receive (c : Chats) : Chats :=
  let w := bot.update u ⟨c.store, c.fsm u.sender.userId u.sender.chatId⟩
  ⟨w.store, fun userId chatId =>
    if userId = u.sender.userId ∧ chatId = u.sender.chatId then w.fsm else c.fsm userId chatId⟩

end Bot

end Planner
