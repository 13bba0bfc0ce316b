import Planner.EditLoop
import Planner.Standing
import Planner.Tools

/-! One turn of the agent in a chat: the model calls tools until it answers, the
reply collects their evidence, and the handler shows it. -/

namespace Planner

structure ToolUse where
  name : String
  args : Args

/-- A call as it went. -/
structure CallRecord where
  use : ToolUse
  before : Store
  after : Store
  outcome : ToolOutcome

/-- A turn so far; the clock counts the operations on the tables. -/
structure Turn where
  store : Store
  box : ToolBox := {}
  clock : Nat := 0
  calls : List CallRecord := []

/-- The tasks the turn has captured. -/
def Turn.captures (turn : Turn) : List CaptureResult := turn.calls.filterMap fun r => r.outcome.captured

section Turn

variable (ctx : ToolContext) (fail : Nat → Bool)

/-- The database does not answer at the times `fail` says. -/
def outage (n : Nat) : Option PlannerError := if fail n then some .unavailable else none

def Turn.call (use : ToolUse) (turn : Turn) : Except String String × Turn :=
  match (turn.box.execute ctx use.args use.name).runFaulty (outage fail) turn.clock turn.store with
  | (.ok outcome, clock, store) =>
    (.ok (outcome.text ctx use.name), ⟨store, outcome.box, clock, turn.calls ++ [⟨use, turn.store, store, outcome⟩]⟩)
  | (.error e, clock, store) => (.error (ctx.errorText e), { turn with store, clock })

def turnEnv (api : List (AgentMessage ToolUse) → Except String (Response ToolUse)) : AgentEnv Turn ToolUse where
  api := api
  execute := Turn.call ctx fail
  toolbox := Turn.box

end Turn

/-- What the chat gets to see: an exception nothing, an incomplete capture its
buttons, and otherwise a text, with the keyboard of a proposal. -/
inductive ChatAnswer
  | nothing
  | clarify (pending : PendingCapture)
  | message (text : String) (keyboard : Option UUID)
  deriving DecidableEq, Repr

namespace ChatAnswer

def text : ChatAnswer → String
  | .message text _ => text
  | _ => ""

def keyboard : ChatAnswer → Option UUID
  | .message _ keyboard => keyboard
  | _ => none

end ChatAnswer

/-- The links that the text lacks. -/
def appendNotionLinks (text : String) (urls : List String) : String :=
  let extra := urls.filter fun u => u ≠ "" ∧ !occurs u text.toList
  if extra = [] then text else text ++ "\n\n" ++ joined "\n" (extra.map fun u => "🔗 Notion: " ++ u)

/-- The buttons of an incomplete capture come before everything else. -/
def showReply (fsm : ChatState) (reply : AgentReply) : ChatAnswer × ChatState :=
  match reply.clarify with
  | some pending => (.clarify pending, { fsm with waiting := false })
  | none =>
    let replies := reply.capturedReplies.filter fun r => strip r ≠ ""
    let base := if replies ≠ [] then joined "\n\n" replies else reply.text
    let final := appendNotionLinks base reply.notionUrls
    let final := if strip final = "" then "Готово." else final
    (.message final reply.proposedPvId, { fsm with pendingPvId := reply.proposedPvId.or fsm.pendingPvId })

section Handler

variable (U : CharTables) (env : AgentEnv Turn ToolUse) (message : String) (chat : ChatContext)

def agentTurn (fsm : ChatState) (turn : Turn) : (ChatAnswer × ChatState) × Turn :=
  match agentRun env U message chat turn with
  | (.ok reply, turn) => (showReply fsm reply, turn)
  | (.error _, turn) => ((.nothing, fsm), turn)

/-- The loop inside the turn. -/
def turnLoop (turn : Turn) : Except String AgentReply × Turn :=
  agentLoop env maxIters [.user (buildContextBlock chat ++ "\n---\n" ++ message)] turn

end Handler

/-- The captured tasks. -/
def Store.botTasks (s : Store) : List UUID :=
  (s.tasks.entries.filter fun e => e.2.source = .botFormed).map Prod.fst

def Store.newTasks (s s' : Store) : List UUID := s'.botTasks.filter fun t => decide (t ∉ s.botTasks)

namespace ChatAnswer

def Says (answer : ChatAnswer) (s : String) : Prop := s.toList <:+: answer.text.toList

/-- The confirmation of the task, and its link. -/
def Reports (answer : ChatAnswer) (c : CaptureResult) : Prop :=
  (∃ assignees, answer.Says (formatCaptureConfirmation c.taskTitle c.projectTitle assignees c.deadlineIso)) ∧
    ∀ url ∈ c.notionUrl, url ≠ "" → answer.Says url

end ChatAnswer

/-- The answer shows what the turn has written since `s₀`. -/
structure Surfaced (s₀ : Store) (answer : ChatAnswer) (fsm : ChatState) (turn : Turn) : Prop where
  latest : ∀ v ∈ (s₀.newVersions turn.store).getLast?, answer.keyboard = some v ∧ fsm.pendingPvId = some v ∧
    ∀ w ∈ s₀.newVersions turn.store, w ≠ v → ¬ turn.store.IsProposed w
  tasks : ∀ t ∈ s₀.newTasks turn.store, ∃ c ∈ turn.captures, c.taskId = t ∧ answer.Reports c

/-- Neither a plan version nor a captured task is new. -/
def NothingNew (s s' : Store) : Prop :=
  (∀ v ∈ s'.planVersions.keys, v ∈ s.planVersions.keys) ∧ ∀ t ∈ s'.botTasks, t ∈ s.botTasks

/-- No call raises after it has written a plan version or a task, and none answers
a plan when the turn has one. -/
def OrderlyCalls (s₀ : Store) (calls : List CallRecord) : Prop :=
  ∀ r ∈ calls, (∀ e, r.outcome.said = .error e → NothingNew r.before r.after) ∧
    (r.use.name = "plan_project" → ∀ text, r.outcome.said = .ok text → ∀ v ∈ r.before.planVersions.keys,
      v ∈ s₀.planVersions.keys)

end Planner
