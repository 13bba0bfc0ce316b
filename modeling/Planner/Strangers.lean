import Planner.CommittedVersion
import Planner.Updates

/-! Updates of strangers: senders who are neither known persons nor admins, and
who do not write in the team chat. Whatever they send, in any order, the tables
stay as they are. -/

namespace Planner

open Program

def stranger : Actor := ⟨false, none⟩

namespace Clarify

variable {U : CharTables} {chat : Chat} {s : Store}

theorem sendFieldKeyboard_keeps (args : PartialCapture) (fsm : Fsm) : (sendFieldKeyboard args fsm).Keeps (· = s) := by
  unfold sendFieldKeyboard
  split
  · exact Keeps.pure _
  · refine (Keeps.read _).attempt.bind fun r => ?_
    cases r <;> exact Keeps.pure _
  · refine (Keeps.read _).attempt.bind fun r => ?_
    cases r <;> exact Keeps.pure _
  · exact Keeps.pure _

/-- Whoever answers, only an admin has the task captured in the end. -/
theorem afterFill_keeps (hadmin : chat.isAdmin = false) (args : PartialCapture) (fsm : Fsm) :
    (afterFill U chat args fsm).Keeps (· = s) := by
  unfold afterFill
  split
  · unfold finalize
    rw [hadmin]
    exact Keeps.pure _
  · exact sendFieldKeyboard_keeps args _

theorem pickFromOptions_keeps (hadmin : chat.isAdmin = false) (options : List String) (idx : Nat)
    (fill : String → PartialCapture) (fsm : Fsm) : (pickFromOptions U chat options idx fill fsm).Keeps (· = s) := by
  unfold pickFromOptions
  split
  · exact Keeps.pure _
  · exact afterFill_keeps hadmin _ _

theorem handlePress_keeps (hadmin : chat.isAdmin = false) (press : Press) (fsm : Fsm) :
    (handlePress U chat press fsm).Keeps (· = s) := by
  cases press with
  | project idx => exact pickFromOptions_keeps hadmin _ _ _ _
  | assignee idx => exact pickFromOptions_keeps hadmin _ _ _ _
  | deadline days =>
    rw [handlePress, handlePickDeadline]
    exact afterFill_keeps hadmin _ _
  | newProject => exact Keeps.pure _
  | deadlineText => exact Keeps.pure _

theorem handleTypedProject_keeps (hadmin : chat.isAdmin = false) (text : String) (fsm : Fsm) :
    (handleTypedProject U chat text fsm).Keeps (· = s) := by
  rw [handleTypedProject]
  exact afterFill_keeps hadmin _ _

theorem handleTypedDeadline_keeps (hadmin : chat.isAdmin = false) (text : String) (fsm : Fsm) :
    (handleTypedDeadline U chat text fsm).Keeps (· = s) := by
  unfold handleTypedDeadline
  split
  · exact Keeps.pure _
  · exact Keeps.pure _
  · exact afterFill_keeps hadmin _ _

end Clarify

namespace Bot

variable {bot : Bot} {u : Update} {w : World}

theorem perform_store {p : UseCase Fsm} (hp : p.Keeps (· = w.store)) : (perform u p w).store = w.store := by
  have houtage : ∀ n, ∀ e ∈ outage u.fail n, True := fun _ _ _ => trivial
  have hends : p.Ends (fun _ => True) w.store _ _ := Ends.runFaulty houtage p 0 w.store
  have hstore := hp.ends rfl hends
  unfold perform
  rcases hrun : p.runFaulty (outage u.fail) 0 w.store with ⟨r, clock, store⟩
  rw [hrun] at hstore
  cases r <;> exact hstore

theorem handleText_stranger (agent : Option (List (AgentMessage ToolUse) → Except String (Response ToolUse)))
    (lastPvId : Option UUID) (text : String) :
    bot.handleText u stranger agent lastPvId text w = (w, none) := by
  rw [handleText]
  exact if_pos rfl

theorem handleMessage_stranger (command : Option Command) (text : String) :
    (bot.handleMessage u stranger command text w).store = w.store := by
  have hadmin : (bot.chat u stranger).isAdmin = false := rfl
  unfold handleMessage
  split
  · rfl
  · have hproject : (Clarify.handleTypedProject bot.tables (bot.chat u stranger) text w.fsm).Keeps (· = w.store) :=
      Clarify.handleTypedProject_keeps hadmin _ _
    exact perform_store (Keeps.map _ hproject)
  · have hdeadline : (Clarify.handleTypedDeadline bot.tables (bot.chat u stranger) text w.fsm).Keeps (· = w.store) :=
      Clarify.handleTypedDeadline_keeps hadmin _ _
    exact perform_store (Keeps.map _ hdeadline)
  · simp only [handleTask, handleText_stranger, ite_self]
  · simp only [handleEditText, handleText_stranger, ite_self]
  · simp only [handleMentionOrDm, handleText_stranger, ite_self]
  · have hgate : (stranger.record.isNone && !stranger.isAdmin) = true := rfl
    rw [handleVacation, if_pos (Or.inl hgate)]
  · rfl
  · rfl
  · rfl

theorem handle_stranger : (bot.handle u stranger w).store = w.store := by
  unfold handle
  split
  · exact handleMessage_stranger _ _
  · simp only [handleVoice, handleText_stranger, ite_self]
  · exact perform_store (Keeps.map _ (Keeps.pure _))
  · rfl
  · exact perform_store (Keeps.map _ (Clarify.handlePress_keeps rfl _ _))

/-- The middleware answers what it would without the outage, or nothing. -/
theorem resolveActor_faulty {gate : Gate} {sender : Sender} {actor : Actor} {fail : Nat → Bool} {s s' : Store} {n : Nat}
    (h : (resolveActor gate sender).runFaulty (outage fail) 0 s = (.ok actor, n, s')) :
    ((resolveActor gate sender).run s).1 = .ok actor := by
  have houtage : ∀ n, ∀ e ∈ outage fail n, True := fun _ _ _ => trivial
  have hends : (resolveActor gate sender).Ends (fun _ => True) s _ _ :=
    Ends.runFaulty houtage (resolveActor gate sender) 0 s
  rw [h] at hends
  unfold resolveActor at hends ⊢
  split at hends
  · obtain ⟨hr, -⟩ := Ends.of_pure hends
    exact hr.symm
  · obtain ⟨record, rfl, k₁⟩ := Ends.of_bind_read_ok hends
    obtain ⟨hr, -⟩ := Ends.of_pure k₁
    exact hr.symm

/-- An update of a stranger: the middleware finds neither rights nor a person. -/
inductive StrangerStep (bot : Bot) : Chats → Chats → Prop
  | receive {c : Chats} (u : Update) (h : ((resolveActor bot.gate u.sender).run c.store).1 = .ok stranger) :
      StrangerStep bot c (bot.receive u c)

theorem update_stranger (h : ((resolveActor bot.gate u.sender).run w.store).1 = .ok stranger) :
    (bot.update u w).store = w.store := by
  unfold update
  rcases hrun : (resolveActor bot.gate u.sender).runFaulty (outage u.fail) 0 w.store with ⟨r, clock, store⟩
  cases r with
  | error e => rfl
  | ok actor =>
    obtain rfl := Except.ok.inj ((resolveActor_faulty hrun).symm.trans h)
    exact handle_stranger

/-- Strangers write nothing. -/
theorem strangers_write_nothing {c c' : Chats} (h : Relation.ReflTransGen (StrangerStep bot) c c') :
    c'.store = c.store := by
  induction h with
  | refl => rfl
  | tail _ hstep ih =>
    obtain ⟨u, hactor⟩ := hstep
    exact (update_stranger (w := ⟨_, _⟩) hactor).trans ih

theorem noSkills_length : ([] : List String).length ≤ 20 := Nat.zero_le 20

/-- Writes to the bot in private; whatever he writes would be a capture. -/
def passerby (event : Event) : Update where
  sender := ⟨some 7, some 7⟩
  today := 739769
  event := event
  agent := none
  parseIntents _ _ := .ok [.captureTask ⟨"КП", ["Анна"], none, none, none, none, [], by decide, by decide, nofun, noSkills_length⟩]
  parse _ _ := .ok (.vacation ⟨"Анна", 739769, 739770, 0⟩)
  recentMessages := []
  fail _ := false

def smallBot : Bot where
  tables := .plain
  gate := ⟨[1], some 2, [(3, 0)]⟩
  solver := .onWeekdays
  taskSink := none
  projectSink := none
  report _ _ _ := .ok ""
  planText _ := ""
  replanText _ := ""
  errorText _ := ""

def onePerson : Chats := ⟨{ people := OrdDict.empty.insert 0 { name := "Анна" }, nextId := 1 }, fun _ _ => {}⟩

/-- A message, and two presses on a keyboard that somebody else was sent. -/
theorem strangers_write_nothing_passerby :
    (smallBot.receive (passerby (.press (.deadline 1))) (smallBot.receive (passerby (.press (.assignee 0)))
      (smallBot.receive (passerby (.message none "ставь КП на Анну")) onePerson))).store = onePerson.store :=
  strangers_write_nothing (((Relation.ReflTransGen.refl.tail (.receive _ rfl)).tail (.receive _ rfl)).tail
    (.receive _ rfl))

end Bot

end Planner
