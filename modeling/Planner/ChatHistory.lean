import Mathlib.Data.List.DropRight
import Planner.AgentTurn
import Planner.Lib.Purge
import Planner.Strangers

/-! The last messages of a chat, as the model gets to read them. They are what members of
the team have asked there and what the agent has answered; what a stranger writes is in
none of them, and nobody else is answered differently for it. -/

namespace Planner

/-- `deque(maxlen=maxTurns)` for every chat. -/
structure ChatHistory where
  maxTurns : Nat := 8
  byChat : OrdDict Int (List String) := .empty

namespace ChatHistory

/-- A full `deque` drops its first item. -/
def pushed (maxTurns : Nat) (buf : List String) (text : String) : List String := (buf ++ [text]).rtake maxTurns

def recent (history : ChatHistory) (chatId : Int) : List String := history.byChat.getD chatId []

def record (history : ChatHistory) (chatId : Int) (text : String) : ChatHistory :=
  let stripped := strip text
  if stripped = "" then history
  else { history with
    byChat := history.byChat.insert chatId (pushed history.maxTurns (history.recent chatId) stripped) }

end ChatHistory

/-- What an update hands to `_handle_text`; the agent is not for the edit loop. -/
structure Asking where
  text : String
  agent : Option (List (AgentMessage ToolUse) → Except String (Response ToolUse))
  lastPvId : Option UUID := none

namespace Bot

section Asking

variable (bot : Bot) (u : Update) (actor : Actor)

/-- The text of an update, if one of the handlers of texts takes it. -/
def asked (fsm : Fsm) : Option Asking :=
  match u.event with
  | .message command text =>
    match command, fsm.step with
    | some .start, _ => none
    | _, some .projectName => none
    | _, some .deadlineText => none
    | some .task, _ => if argument text = "" then none else some { text := argument text, agent := u.agent }
    | _, some .editing =>
      if strip text = "" then none else some { text := strip text, agent := none, lastPvId := fsm.pendingPvId }
    | none, none =>
      let text := if text.toList.head? = some '@' then argument text else strip text
      if u.addressed ∧ text ≠ "" then some { text, agent := u.agent } else none
    | some _, none => none
  | .voice transcript =>
    if u.addressed ∧ transcript ≠ "" then some { text := transcript, agent := u.agent } else none
  | _ => none

/-- The text the agent answers, if it answers in words. -/
def agentSays (api : List (AgentMessage ToolUse) → Except String (Response ToolUse)) (text : String)
    (ctx : ChatContext) (w : World) : Option String :=
  match (agentTurn bot.tables (turnEnv (bot.toolContext u actor) u.fail api) text ctx ⟨true, w.fsm.pendingPvId⟩
      { store := w.store }).1.1 with
  | .message text _ => some text
  | _ => none

/-- What `_handle_text` records: nothing of a stranger, and no confirmation of a plan. -/
def recordedText (asking : Asking) (w : World) : List String :=
  if actor.record.isNone && !actor.isAdmin then []
  else
    match if isConfirmPhrase bot.tables asking.text then w.fsm.pendingPvId.or asking.lastPvId else none with
    | some _ => []
    | none =>
      match (chatContext u).runFaulty (outage u.fail) 0 w.store with
      | (.error _, _, _) => []
      | (.ok ctx, _, _) =>
        match asking.agent with
        | none => [asking.text]
        | some api => asking.text :: (bot.agentSays u actor api asking.text ctx w).toList

def recorded (w : World) : List String :=
  match asked u w.fsm with
  | none => []
  | some asking => bot.recordedText u actor asking w

/-- The middleware comes first here too. -/
def said (w : World) : List String :=
  match (resolveActor bot.gate u.sender).runFaulty (outage u.fail) 0 w.store with
  | (.ok actor, _, _) => bot.recorded u actor w
  | (.error _, _, _) => []

end Asking

/-- The chats and what was said in them. -/
structure Talk where
  chats : Chats
  history : ChatHistory := {}

/-- What the handlers are given of an update: the tables, the sender's dialogue, and the
last messages of the chat. -/
def heard (talk : Talk) (u : Update) : Update × World :=
  ({ u with recentMessages := (u.sender.chatId.map talk.history.recent).getD [] },
    ⟨talk.chats.store, talk.chats.fsm u.sender.userId u.sender.chatId⟩)

variable (bot : Bot)

/-- What an update adds to the history of its chat. -/
def adds (talk : Talk) (u : Update) : List String := bot.said (heard talk u).1 (heard talk u).2

def converse (talk : Talk) (u : Update) : Talk where
  chats := bot.receive (heard talk u).1 talk.chats
  history :=
    match u.sender.chatId with
    | some chatId => (bot.adds talk u).foldl (fun history => history.record chatId) talk.history
    | none => talk.history

/-- The lines of a run, with their chats; blank ones are left out. -/
def lines (talk : Talk) : List Update → List (Option Int × String)
  | [] => []
  | u :: us => (((bot.adds talk u).map strip).filter (· ≠ "")).map (u.sender.chatId, ·) ++ lines (bot.converse talk u) us

/-- The lines of one chat. -/
def linesIn (chatId : Int) (lines : List (Option Int × String)) : List String :=
  (lines.filter fun line => line.1 = some chatId).map Prod.snd

end Bot

/-- No admin, nobody of the team, and not in the team chat. -/
def Gate.isStrange (gate : Gate) (sender : Sender) : Bool :=
  !(gate.teamChatId.isSome && sender.chatId == gate.teamChatId) &&
    sender.userId.all fun id => !gate.adminIds.contains id && (gate.tgUserIds.lookup id).isNone

namespace ChatHistory

theorem recent_record_self (history : ChatHistory) (chatId : Int) (text : String) :
    (history.record chatId text).recent chatId =
      if strip text = "" then history.recent chatId
      else pushed history.maxTurns (history.recent chatId) (strip text) := by
  unfold record
  dsimp only
  split
  · rfl
  · rw [recent, OrdDict.getD, OrdDict.get?_insert_self, Option.getD_some]

theorem recent_record_of_ne (history : ChatHistory) {chatId other : Int} (h : other ≠ chatId) (text : String) :
    (history.record chatId text).recent other = history.recent other := by
  unfold record
  dsimp only
  split
  · rfl
  · rw [recent, OrdDict.getD, OrdDict.get?_insert_of_ne _ _ h]
    rfl

theorem maxTurns_record (history : ChatHistory) (chatId : Int) (text : String) :
    (history.record chatId text).maxTurns = history.maxTurns := by
  unfold record
  dsimp only
  split <;> rfl

/-- What was dropped before is not missed. -/
theorem pushed_rtake (n : Nat) (l : List String) (text : String) : pushed n (l.rtake n) text = (l ++ [text]).rtake n := by
  cases n with
  | zero => rw [pushed, List.rtake_zero, List.rtake_zero]
  | succ n =>
    rw [pushed, List.rtake_concat_succ, List.rtake_concat_succ]
    congr 1
    rw [List.rtake_eq_reverse_take_reverse, List.rtake_eq_reverse_take_reverse l, List.rtake_eq_reverse_take_reverse,
      List.reverse_reverse, List.take_take, Nat.min_eq_left (Nat.le_succ n)]

/-- Where a history of a chat is the last of `told`, it is that of `told` and what is recorded. -/
theorem recent_foldl_self {history : ChatHistory} {chatId : Int} {told : List String}
    (h : history.recent chatId = told.rtake history.maxTurns) (texts : List String) :
    (texts.foldl (fun history => history.record chatId) history).recent chatId =
      (told ++ (texts.map strip).filter (· ≠ "")).rtake history.maxTurns := by
  induction texts generalizing history told with
  | nil => simpa using h
  | cons text texts ih =>
    rw [List.foldl_cons, List.map_cons]
    by_cases hblank : strip text = ""
    · have hsame : (history.record chatId text).recent chatId = told.rtake (history.record chatId text).maxTurns := by
        rw [recent_record_self, if_pos hblank, maxTurns_record, h]
      rw [ih hsame, maxTurns_record, List.filter_cons_of_neg (by simp [hblank])]
    · have hpushed : (history.record chatId text).recent chatId =
          (told ++ [strip text]).rtake (history.record chatId text).maxTurns := by
        rw [recent_record_self, if_neg hblank, maxTurns_record, h, pushed_rtake]
      rw [ih hpushed, maxTurns_record, List.filter_cons_of_pos (by simpa using hblank), List.append_assoc]
      rfl

theorem recent_foldl_of_ne (history : ChatHistory) {chatId other : Int} (h : other ≠ chatId) (texts : List String) :
    (texts.foldl (fun history => history.record chatId) history).recent other = history.recent other := by
  induction texts generalizing history with
  | nil => rfl
  | cons text texts ih => rw [List.foldl_cons, ih, recent_record_of_ne history h]

theorem maxTurns_foldl (history : ChatHistory) (chatId : Int) (texts : List String) :
    (texts.foldl (fun history => history.record chatId) history).maxTurns = history.maxTurns := by
  induction texts generalizing history with
  | nil => rfl
  | cons text texts ih => rw [List.foldl_cons, ih, maxTurns_record]

end ChatHistory

namespace Bot

variable {bot : Bot} {u : Update} {actor : Actor} {w : World}

theorem receive_congr {u' : Update} {c : Chats} (hsender : u'.sender = u.sender)
    (h : bot.update u' ⟨c.store, c.fsm u.sender.userId u.sender.chatId⟩ =
      bot.update u ⟨c.store, c.fsm u.sender.userId u.sender.chatId⟩) : bot.receive u' c = bot.receive u c := by
  simp only [receive, hsender, h]

section Recent

theorem maxTurns_converse (bot : Bot) (talk : Talk) (u : Update) :
    (bot.converse talk u).history.maxTurns = talk.history.maxTurns := by
  unfold converse
  cases u.sender.chatId with
  | none => rfl
  | some chatId => exact ChatHistory.maxTurns_foldl _ _ _

theorem linesIn_append (chatId : Int) (lines later : List (Option Int × String)) :
    linesIn chatId (lines ++ later) = linesIn chatId lines ++ linesIn chatId later := by
  rw [linesIn, List.filter_append, List.map_append]
  rfl

/-- One update adds its lines to its own chat. -/
theorem recent_converse (bot : Bot) {talk : Talk} {chatId : Int} {told : List String}
    (h : talk.history.recent chatId = told.rtake talk.history.maxTurns) (u : Update) :
    (bot.converse talk u).history.recent chatId = (told ++ linesIn chatId
      ((((bot.adds talk u).map strip).filter (· ≠ "")).map (u.sender.chatId, ·))).rtake talk.history.maxTurns := by
  unfold converse
  cases hchat : u.sender.chatId with
  | none =>
    have hnone : linesIn chatId ((((bot.adds talk u).map strip).filter (· ≠ "")).map (none, ·)) = [] := by
      simp [linesIn, List.filter_map, Function.comp_def]
    rw [hnone, List.append_nil, ← h]
  | some here =>
    by_cases hsame : chatId = here
    · subst hsame
      have hall : linesIn chatId ((((bot.adds talk u).map strip).filter (· ≠ "")).map (some chatId, ·)) =
          ((bot.adds talk u).map strip).filter (· ≠ "") := by
        simp [linesIn, List.filter_map, Function.comp_def]
      rw [hall]
      exact ChatHistory.recent_foldl_self h _
    · have hnone : linesIn chatId ((((bot.adds talk u).map strip).filter (· ≠ "")).map (some here, ·)) = [] := by
        simp [linesIn, List.filter_map, Function.comp_def, Ne.symm hsame]
      rw [hnone, List.append_nil, ← h]
      exact ChatHistory.recent_foldl_of_ne _ hsame _

theorem recent_after (bot : Bot) {talk : Talk} {chatId : Int} {told : List String}
    (h : talk.history.recent chatId = told.rtake talk.history.maxTurns) (us : List Update) :
    (Trace.after bot.converse talk us).history.recent chatId =
      (told ++ linesIn chatId (bot.lines talk us)).rtake talk.history.maxTurns := by
  induction us generalizing talk told with
  | nil => simpa [lines, linesIn] using h
  | cons u us ih =>
    have hstep := recent_converse bot h u
    rw [← maxTurns_converse bot talk u] at hstep
    rw [Trace.after_cons, ih hstep, maxTurns_converse, lines, linesIn_append, List.append_assoc]

end Recent

section Unasked

variable (answers : Option (List (AgentMessage ToolUse) → Except String (Response ToolUse)))
  (intents : String → ChatContext → Except ParseError (List Intent))

/-- The update, should the model answer otherwise. -/
def withAnswers (u : Update) : Update := { u with agent := answers, parseIntents := intents }

/-- A text that is not recorded is not shown to the model. -/
theorem handleText_unrecorded {asking : Asking} (h : bot.recordedText u actor asking w = [])
    (agent : Option (List (AgentMessage ToolUse) → Except String (Response ToolUse))) :
    bot.handleText (withAnswers answers intents u) actor agent asking.lastPvId asking.text w =
      bot.handleText u actor asking.agent asking.lastPvId asking.text w := by
  unfold recordedText at h
  unfold handleText
  by_cases hgate : (actor.record.isNone && !actor.isAdmin) = true
  · rw [if_pos hgate, if_pos hgate]
  · rw [if_neg hgate] at h
    rw [if_neg hgate, if_neg hgate]
    cases hpending : (if isConfirmPhrase bot.tables asking.text then w.fsm.pendingPvId.or asking.lastPvId else none) with
    | some pending => rfl
    | none =>
      rw [hpending] at h
      dsimp only at h ⊢
      have hsame : chatContext (withAnswers answers intents u) = chatContext u := rfl
      have hfail : (withAnswers answers intents u).fail = u.fail := rfl
      rw [hsame, hfail]
      rcases hctx : (chatContext u).runFaulty (outage u.fail) 0 w.store with ⟨_ | ctx, clock, store⟩
      · rfl
      · rw [hctx] at h
        dsimp only at h
        cases hagent : asking.agent with
        | none =>
          rw [hagent] at h
          cases h
        | some api =>
          rw [hagent] at h
          cases h

theorem perform_withAnswers (p : UseCase Fsm) : perform (withAnswers answers intents u) p w = perform u p w := rfl

theorem chat_withAnswers : bot.chat (withAnswers answers intents u) actor = bot.chat u actor := rfl

theorem handleVacation_withAnswers (text : String) :
    handleVacation (withAnswers answers intents u) actor text w = handleVacation u actor text w := rfl

theorem addressed_withAnswers : (withAnswers answers intents u).addressed = u.addressed := rfl

theorem handleReplan_withAnswers : bot.handleReplan (withAnswers answers intents u) actor w = bot.handleReplan u actor w := rfl

/-- The handlers pass on what `asked` says they do. -/
theorem handleMessage_unrecorded {command : Option Command} {text : String} (hevent : u.event = .message command text)
    (hquiet : ∀ asking, asked u w.fsm = some asking → bot.recordedText u actor asking w = []) :
    bot.handleMessage (withAnswers answers intents u) actor command text w = bot.handleMessage u actor command text w := by
  have htask : asked u w.fsm = (if argument text = "" then none else some { text := argument text, agent := u.agent }) →
      bot.handleTask (withAnswers answers intents u) actor text w = bot.handleTask u actor text w := by
    intro hasked
    unfold handleTask
    by_cases hblank : argument text = ""
    · rw [if_pos hblank, if_pos hblank]
    · rw [if_neg hblank] at hasked
      rw [if_neg hblank, if_neg hblank]
      exact congrArg Prod.fst (handleText_unrecorded answers intents (hquiet _ hasked) answers)
  have hedit : asked u w.fsm = (if strip text = "" then none
        else some { text := strip text, agent := none, lastPvId := w.fsm.pendingPvId }) →
      bot.handleEditText (withAnswers answers intents u) actor text w = bot.handleEditText u actor text w := by
    intro hasked
    unfold handleEditText
    by_cases hblank : strip text = ""
    · rw [if_pos hblank, if_pos hblank]
    · rw [if_neg hblank] at hasked
      rw [if_neg hblank, if_neg hblank]
      dsimp only
      rw [handleText_unrecorded answers intents (hquiet _ hasked) none]
      rfl
  have hmention : asked u w.fsm = (let text := if text.toList.head? = some '@' then argument text else strip text
        if u.addressed ∧ text ≠ "" then some { text, agent := u.agent } else none) →
      bot.handleMentionOrDm (withAnswers answers intents u) actor text w = bot.handleMentionOrDm u actor text w := by
    intro hasked
    unfold handleMentionOrDm
    dsimp only at hasked ⊢
    rw [addressed_withAnswers]
    by_cases hheeded : u.addressed = true ∧ (if text.toList.head? = some '@' then argument text else strip text) ≠ ""
    · rw [if_pos hheeded] at hasked
      rw [if_pos hheeded, if_pos hheeded]
      exact congrArg Prod.fst (handleText_unrecorded answers intents (hquiet _ hasked) answers)
    · rw [if_neg hheeded, if_neg hheeded]
  unfold asked at htask hedit hmention
  rw [hevent] at htask hedit hmention
  unfold handleMessage
  simp only [perform_withAnswers, chat_withAnswers, handleVacation_withAnswers, handleReplan_withAnswers]
  cases hstep : w.fsm.step with
  | none =>
    rw [hstep] at htask hedit hmention
    cases command with
    | none => exact hmention rfl
    | some command =>
      cases command with
      | task => exact htask rfl
      | _ => rfl
  | some step =>
    rw [hstep] at htask hedit hmention
    cases step with
    | editing =>
      cases command with
      | none => exact hedit rfl
      | some command =>
        cases command with
        | start => rfl
        | task => exact htask rfl
        | _ => exact hedit rfl
    | _ =>
      cases command with
      | none => rfl
      | some command => cases command <;> rfl

/-- An update that leaves no line is handled the same whatever the model would answer. -/
theorem handle_unrecorded (h : bot.recorded u actor w = []) :
    bot.handle (withAnswers answers intents u) actor w = bot.handle u actor w := by
  have hquiet : ∀ asking, asked u w.fsm = some asking → bot.recordedText u actor asking w = [] := by
    intro asking hasked
    rw [recorded, hasked] at h
    exact h
  unfold handle
  cases hevent : u.event with
  | message command text =>
    rw [show (withAnswers answers intents u).event = _ from hevent]
    exact handleMessage_unrecorded answers intents hevent hquiet
  | voice transcript =>
    rw [show (withAnswers answers intents u).event = _ from hevent]
    dsimp only
    unfold handleVoice
    rw [addressed_withAnswers]
    by_cases hheeded : u.addressed = true ∧ transcript ≠ ""
    · rw [if_pos hheeded, if_pos hheeded]
      have hasked : asked u w.fsm = some { text := transcript, agent := u.agent } := by
        rw [asked, hevent]
        exact if_pos hheeded
      exact congrArg Prod.fst (handleText_unrecorded answers intents (hquiet _ hasked) answers)
    · rw [if_neg hheeded, if_neg hheeded]
  | confirm pvId =>
    rw [show (withAnswers answers intents u).event = _ from hevent]
    rfl
  | edit pvId => rw [show (withAnswers answers intents u).event = _ from hevent]
  | press press =>
    rw [show (withAnswers answers intents u).event = _ from hevent]
    rfl

theorem update_unrecorded (h : bot.said u w = []) : bot.update (withAnswers answers intents u) w = bot.update u w := by
  unfold said at h
  unfold update
  rw [show (withAnswers answers intents u).sender = u.sender from rfl, show (withAnswers answers intents u).fail = u.fail from rfl]
  cases hrun : (resolveActor bot.gate u.sender).runFaulty (outage u.fail) 0 w.store with
  | mk r rest =>
    rw [hrun] at h
    cases r with
    | error e => rfl
    | ok actor => exact handle_unrecorded answers intents h

theorem converse_unrecorded {talk : Talk} (h : bot.adds talk u = []) :
    (bot.converse talk (withAnswers answers intents u)).chats = (bot.converse talk u).chats := by
  have hupdate : bot.update (withAnswers answers intents (heard talk u).1) (heard talk u).2 =
      bot.update (heard talk u).1 (heard talk u).2 := update_unrecorded answers intents h
  change bot.receive (withAnswers answers intents (heard talk u).1) talk.chats = bot.receive (heard talk u).1 talk.chats
  exact receive_congr rfl hupdate

end Unasked

section Strangers

theorem resolveActor_strange {gate : Gate} {sender : Sender} (h : gate.isStrange sender = true) (s : Store) :
    ((resolveActor gate sender).run s).1 = .ok stranger := by
  rw [Gate.isStrange, Bool.and_eq_true, Bool.not_eq_true'] at h
  obtain ⟨hteam, hid⟩ := h
  unfold resolveActor
  rw [hteam]
  cases huser : sender.userId with
  | none => rfl
  | some id =>
    rw [huser, Option.all_some, Bool.and_eq_true, Bool.not_eq_true', Option.isNone_iff_eq_none] at hid
    obtain ⟨hadmin, hlookup⟩ := hid
    dsimp only
    rw [Program.run_bind, Repo.getPersonByTgId, Program.run_read, hlookup, hadmin]
    rfl

theorem said_strange (h : bot.gate.isStrange u.sender = true) : bot.said u w = [] := by
  unfold said
  rcases hrun : (resolveActor bot.gate u.sender).runFaulty (outage u.fail) 0 w.store with ⟨_ | actor, clock, store⟩
  · rfl
  · obtain rfl := Except.ok.inj ((resolveActor_faulty hrun).symm.trans (resolveActor_strange h w.store))
    dsimp only
    unfold recorded
    cases asked u w.fsm with
    | none => rfl
    | some asking => rfl

/-- Nobody but strangers can tell the two apart. -/
structure SameToKnown (gate : Gate) (talk talk' : Talk) : Prop where
  store : talk.chats.store = talk'.chats.store
  history : talk.history = talk'.history
  fsm : ∀ userId chatId, gate.isStrange ⟨userId, chatId⟩ = false → talk.chats.fsm userId chatId = talk'.chats.fsm userId chatId

theorem SameToKnown.refl (gate : Gate) (talk : Talk) : SameToKnown gate talk talk := ⟨rfl, rfl, fun _ _ _ => rfl⟩

/-- A stranger changes at most his own dialogue. -/
theorem converse_strange {talk talk' : Talk} (hu : bot.gate.isStrange u.sender = true)
    (h : SameToKnown bot.gate talk talk') : SameToKnown bot.gate (bot.converse talk u) talk' := by
  have hnone : bot.adds talk u = [] := said_strange hu
  constructor
  · rw [← h.store]
    exact update_stranger (resolveActor_strange hu _)
  · rw [← h.history, converse, hnone]
    cases u.sender.chatId <;> rfl
  · intro userId chatId hknown
    rw [← h.fsm userId chatId hknown]
    refine if_neg fun hself => ?_
    have hsender : (⟨userId, chatId⟩ : Sender) = u.sender := by
      rw [hself.1, hself.2]
      rfl
    rw [hsender, hu] at hknown
    exact Bool.noConfusion hknown

theorem heard_congr {talk talk' : Talk} (h : SameToKnown bot.gate talk talk') (hu : bot.gate.isStrange u.sender = false) :
    heard talk u = heard talk' u := by
  rw [heard, heard, h.store, h.history, h.fsm _ _ hu]

theorem converse_known {talk talk' : Talk} (hu : bot.gate.isStrange u.sender = false)
    (h : SameToKnown bot.gate talk talk') : SameToKnown bot.gate (bot.converse talk u) (bot.converse talk' u) := by
  have hheard := heard_congr h hu
  have hadds : bot.adds talk u = bot.adds talk' u := by
    rw [adds, adds, hheard]
  have hupdate : bot.update (heard talk u).1 (heard talk u).2 = bot.update (heard talk' u).1 (heard talk' u).2 := by
    rw [hheard]
  constructor
  · exact congrArg World.store hupdate
  · rw [converse, converse, hadds, h.history]
  · intro userId chatId hknown
    have hfsm := congrArg World.fsm hupdate
    change (if userId = u.sender.userId ∧ chatId = u.sender.chatId then (bot.update (heard talk u).1 (heard talk u).2).fsm
      else talk.chats.fsm userId chatId) = (if userId = u.sender.userId ∧ chatId = u.sender.chatId then
        (bot.update (heard talk' u).1 (heard talk' u).2).fsm else talk'.chats.fsm userId chatId)
    rw [hfsm, h.fsm userId chatId hknown]

theorem unwinding (bot : Bot) :
    Purge.Unwinding bot.converse heard (fun u => !bot.gate.isStrange u.sender) (SameToKnown bot.gate) := by
  constructor
  · intro talk talk' u hown h
    exact converse_strange (by simpa using hown) h
  · intro talk talk' u hown h
    exact heard_congr h (by simpa using hown)
  · intro talk talk' u hown h
    exact converse_known (by simpa using hown) h

end Strangers

/-- What strangers send, in any order and in between whatever others send, is as if it had
not been sent: each update of the others meets the same tables, dialogue and messages, and
all of these are the same in the end. -/
theorem strangers_unheard (bot : Bot) (talk : Talk) (us : List Update) :
    SameToKnown bot.gate (Trace.after bot.converse talk us)
      (Trace.after bot.converse talk (us.filter fun u => !bot.gate.isStrange u.sender)) ∧
    Purge.given bot.converse heard (fun u => !bot.gate.isStrange u.sender) talk us =
      Purge.given bot.converse heard (fun u => !bot.gate.isStrange u.sender) talk
        (us.filter fun u => !bot.gate.isStrange u.sender) := by
  exact (unwinding bot).purged (SameToKnown.refl bot.gate talk) us

end Bot

end Planner
