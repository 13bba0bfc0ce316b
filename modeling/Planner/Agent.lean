import Planner.BasicParser

/-! The language front end: one question to the model and a fallback, or a loop
of tool calls and a fallback. What the model answers is left open. -/

namespace Planner

/-- A content block of a response; reading the attributes of the last kind raises. -/
inductive Block (τ : Type)
  | text (text : Option String)
  | toolUse (id : String) (call : τ)
  | other
  | malformed
  deriving DecidableEq, Repr

structure Response (τ : Type) where
  stopReason : String
  content : List (Block τ)
  deriving DecidableEq, Repr

/-- The text blocks, joined; a text that is no string raises. -/
def extractText {τ : Type} : List (Block τ) → Except String String
  | [] => .ok ""
  | .text none :: _ => .error "sequence item: expected str instance"
  | .text (some s) :: blocks => (extractText blocks).map (s ++ ·)
  | _ :: blocks => extractText blocks

/-- Drops the fences the model sometimes wraps JSON in. -/
def stripFences (text : String) : String :=
  let fence := "```".toList
  let t := stripChars text.toList
  let t :=
    if fence.isPrefixOf t then
      let t := match t.dropWhile (· ≠ '\n') with
        | _ :: rest => rest
        | [] => t
      let t := stripChars (if "json".toList.isPrefixOf t then t.drop 4 else t)
      if fence.isSuffixOf t then stripChars (t.take (t.length - 3)) else t
    else t
  String.ofList t

section Claude

variable {τ : Type} (U : CharTables) (create : Except String (Response τ))

/-- One intent, or the offline one. -/
def claudeParse (validateJson : String → Except String Intent) (message : String) (ctx : ChatContext) :
    Except ParseError Intent :=
  match create.bind fun resp => (extractText resp.content).bind fun raw => validateJson (stripFences raw) with
  | .ok intent => .ok intent
  | .error _ => parseSync U message ctx

/-- A list of intents, or the offline one. -/
def claudeParseIntents (validateJson : String → Except String (List Intent)) (message : String)
    (ctx : ChatContext) : Except ParseError (List Intent) :=
  match create.bind fun resp => (extractText resp.content).bind fun raw => validateJson (stripFences raw) with
  | .ok intents => .ok intents
  | .error _ => (parseSync U message ctx).map ([·])

end Claude

/-- A capture that waits for the answers to its buttons. -/
structure PendingCapture where
  title : String
  assignees : List String
  project : String
  deadline : Option String
  /-- Unread so far: `none` does not fit a field of type `int | None`. -/
  estHours : Option (Option Int)
  requiredSkills : List String
  deriving DecidableEq, Repr

/-- A task captured in this turn; `idx` is its place among the confirmations. -/
structure CaptureEntry where
  taskId : UUID
  duration : Int
  title : String
  project : String
  deadlineIso : Option String
  assignees : List String
  idx : Nat
  deriving DecidableEq, Repr

/-- What the tools of one turn leave for the reply. -/
structure ToolBox where
  lastProposedPvId : Option UUID := none
  capturedNotionUrls : List String := []
  pendingCapture : Option PendingCapture := none
  capturedReplies : List String := []
  capturesByKey : OrdDict (List Char) CaptureEntry := .empty

structure AgentReply where
  text : String
  proposedPvId : Option UUID := none
  notionUrls : List String := []
  clarify : Option PendingCapture := none
  capturedReplies : List String := []
  deriving DecidableEq, Repr

inductive AgentMessage (τ : Type)
  | user (text : String)
  | assistant (content : List (Block τ))
  | results (results : List (String × String))

/-- The model, as a function of the conversation, and the tools over some world. -/
structure AgentEnv (ω τ : Type) where
  api : List (AgentMessage τ) → Except String (Response τ)
  execute : τ → ω → Except String String × ω
  toolbox : ω → ToolBox

def capMessage : String := "Не успел обработать — переформулируй короче."

def interruptNotice : String :=
  "⚠️ Дальнейшая обработка прервана из-за ошибки — повторите остальное отдельным сообщением."

def planProposedLine : String := "Предложил план — подтверди кнопкой ниже."

def joined (sep : String) (parts : List String) : String := String.intercalate sep parts

/-- `x or "—"`. -/
def orDash (s : String) : String := if s = "" then "—" else s

def buildContextBlock (ctx : ChatContext) : String :=
  "today=" ++ Date.isoformat ctx.today ++ "\nкоманда: " ++ orDash (joined ", " ctx.knownPeople) ++
    "\nпроекты: " ++ orDash (joined ", " ctx.knownProjects) ++ "\nнедавние сообщения:\n" ++
    orDash (joined "\n" ctx.recentMessages)

def finalText {τ : Type} (content : List (Block τ)) : Except String String :=
  (extractText content).map fun text => if strip text = "" then capMessage else strip text

/-- What the turn has done so far, under a text of the model. -/
def ToolBox.reply (box : ToolBox) (text : String) : AgentReply :=
  ⟨text, box.lastProposedPvId, box.capturedNotionUrls, box.pendingCapture, box.capturedReplies⟩

/-- The evidence of an interrupted turn, if it has left any. -/
def partialReply (box : ToolBox) : Option AgentReply :=
  if box.lastProposedPvId.isSome ∨ box.capturedReplies ≠ [] ∨ box.capturedNotionUrls ≠ [] then
    let lines := (if box.lastProposedPvId.isSome then [planProposedLine] else []) ++ [interruptNotice]
    let replies := box.capturedReplies ++ lines
    some ⟨joined "\n\n" replies, box.lastProposedPvId, box.capturedNotionUrls, none, replies⟩
  else none

/-- `str.rstrip(chars)`. -/
def rstrip (chars : List Char) (s : String) : String :=
  String.ofList (s.toList.reverse.dropWhile chars.contains).reverse

def describeIntent : Intent → String
  | .clarify question => question.getD ""
  | .load _ => "Показываю загрузку команды."
  | .captureTask intent => rstrip [':', ' '] ("Записал задачу: " ++ strip intent.taskTitle)
  | .addProject intent => "Планирую проект «" ++ intent.title ++ "»."
  | .whatIf _ => "Моделирую сценарий (что-если)."
  | .vacation intent => rstrip [' '] ("Оформляю отпуск " ++ intent.personName ++ ".")
  | .confirm _ => "Подтверждаю последний предложенный план."
  | .assign _ _ => "Переназначаю задачу."

def maxIters : Nat := 10

section Agent

variable {ω τ : Type} (env : AgentEnv ω τ)

/-- The tool calls of one response, in order. -/
def runTools : List (Block τ) → ω → Except String (List (String × String)) × ω
  | [], w => (.ok [], w)
  | .malformed :: _, w => (.error "attribute", w)
  | .toolUse id call :: blocks, w =>
    match env.execute call w with
    | (.error e, w) => (.error e, w)
    | (.ok out, w) =>
      match runTools blocks w with
      | (.error e, w) => (.error e, w)
      | (.ok results, w) => (.ok ((id, out) :: results), w)
  | _ :: blocks, w => runTools blocks w

def agentLoop : Nat → List (AgentMessage τ) → ω → Except String AgentReply × ω
  | 0, _, w => (.ok ((env.toolbox w).reply capMessage), w)
  | n + 1, messages, w =>
    match env.api messages with
    | .error e => (.error e, w)
    | .ok resp =>
      if resp.stopReason ≠ "tool_use" then
        ((finalText resp.content).map (env.toolbox w).reply, w)
      else
        match runTools env resp.content w with
        | (.error e, w) => (.error e, w)
        | (.ok results, w) => agentLoop n (messages ++ [.assistant resp.content, .results results]) w

/-- The loop; if it raises, the evidence of its tools, or else the offline parser. -/
def agentRun (U : CharTables) (message : String) (ctx : ChatContext) (w : ω) :
    Except ParseError AgentReply × ω :=
  match agentLoop env maxIters [.user (buildContextBlock ctx ++ "\n---\n" ++ message)] w with
  | (.ok reply, w) => (.ok reply, w)
  | (.error _, w) =>
    match partialReply (env.toolbox w) with
    | some reply => (.ok reply, w)
    | none => ((parseSync U message ctx).map fun intent => { text := describeIntent intent }, w)

end Agent

end Planner
