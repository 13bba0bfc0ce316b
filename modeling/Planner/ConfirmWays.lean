import Planner.ConfirmFaults
import Planner.EditLoopRuns

/-! Three ways to confirm a version: its button, a bare phrase, and a parsed
intent. They do not leave the same state of the chat behind. -/

namespace Planner

open Program

section Ways

variable (U : CharTables) (chat : Chat) (lastPvId : Option UUID) (fsm : ChatState) (s : Store)

/-- A handler that raises leaves the state of the chat as it was. -/
def leftBy {α : Type} (p : UseCase (ChatState × α)) : ChatState × Store :=
  match p.run s with
  | (.ok (fsm, _), s) => (fsm, s)
  | (.error _, s) => (fsm, s)

/-- The handler of the button does not see the state of the chat. -/
def afterButton (v : UUID) : ChatState × Store :=
  leftBy fsm s ((fun answer => (fsm, answer)) <$> handleConfirm chat.isAdmin chat.taskSink v chat.actor)

def afterPhrase (message : EditMessage) : ChatState × Store := leftBy fsm s (handleText U chat lastPvId fsm message)

def afterIntent : ChatState × Store := leftBy fsm s (dispatchIntent U chat lastPvId fsm (.confirm none))

/-- The same tables and the same state of the chat, which is over when `v` was committed. -/
structure WaysAgree (v : UUID) (message : EditMessage) : Prop where
  phrase : afterButton chat fsm s v = afterPhrase U chat lastPvId fsm s message
  intent : afterPhrase U chat lastPvId fsm s message = afterIntent U chat lastPvId fsm s
  settled : s.IsProposed v → (afterButton chat fsm s v).2.IsCommitted v → (afterButton chat fsm s v).1 = .cleared

end Ways

section Agreement

variable {U : CharTables} {chat : Chat} {lastPvId : Option UUID} {fsm : ChatState} {s : Store} {v : UUID}
  {message : EditMessage}

/-- The chats answer, unless the version was committed and no entry could be written. -/
theorem confirmAnswer_answers (already : String) (sink : Option TaskSink) (actor : Option PersonRecord) :
    (∃ answer, ((confirmAnswer already (confirmPlan sink v actor)).run s).1 = .ok answer) ∨
      s.IsProposed v ∧ ((confirmPlan sink v actor).run s).2.IsCommitted v := by
  rcases hrun : (confirmPlan sink v actor).run s with ⟨r, s'⟩
  rcases confirmPlan_cases hrun with ⟨hno, -⟩ | ⟨⟨pv, hv, hp⟩, hconfirmed, -⟩
  · rw [confirmAnswer_of_not_proposed sink actor hno]
    exact Or.inl ⟨_, rfl⟩
  · refine Or.inr ⟨⟨pv, hv, hp⟩, ?_⟩
    refine ⟨pv.projectId, ?_⟩
    rw [Store.standing, hconfirmed.planVersions, OrdDict.get?_modify_self, hv]
    rfl

theorem leftBy_map {α : Type} (p : UseCase α) (after : ChatState) :
    leftBy fsm s ((fun a => (after, a)) <$> p) =
      (match (p.run s).1 with | .ok _ => after | .error _ => fsm, (p.run s).2) := by
  change leftBy fsm s (p >>= fun a => Pure.pure (after, a)) = _
  simp only [leftBy, run_bind]
  rcases p.run s with ⟨_ | _, s'⟩ <;> rfl

theorem afterButton_eq (hadmin : chat.isAdmin = true) :
    afterButton chat fsm s v = (fsm, ((confirmPlan chat.taskSink v chat.actor).run s).2) := by
  rw [afterButton, leftBy_map, handleConfirm, if_pos hadmin, confirmAnswer_store]
  split <;> rfl

theorem afterPhrase_eq (hadmin : chat.isAdmin = true) (hphrase : isConfirmPhrase U message.text = true)
    (hpending : fsm.pendingPvId = some v) :
    afterPhrase U chat lastPvId fsm s message =
      (match ((confirmPending chat.taskSink v chat.actor).run s).1 with | .ok _ => .cleared | .error _ => fsm,
        ((confirmPlan chat.taskSink v chat.actor).run s).2) := by
  have hgate : (chat.actor.isNone && !chat.isAdmin) = false := by simp [hadmin]
  have hstore := confirmAnswer_store "Этот план уже зафиксирован." (confirmPlan chat.taskSink v chat.actor) s
  simp only [afterPhrase, handleText, hgate, Bool.false_eq_true, if_false, hphrase, if_true, hpending, Option.some_or,
    leftBy, run_bind, run_attempt]
  rw [← hstore, confirmPending]
  rcases (confirmAnswer "Этот план уже зафиксирован." (confirmPlan chat.taskSink v chat.actor)).run s with ⟨_ | _, s'⟩ <;> rfl

/-- The button never ends the edit loop, the phrase always does unless it raises. -/
theorem ways_never_agree (U : CharTables) (chat : Chat) (lastPvId : Option UUID) (fsm : ChatState) (s : Store) (v : UUID)
    (message : EditMessage) (hadmin : chat.isAdmin = true) (hpending : fsm.pendingPvId = some v)
    (hphrase : isConfirmPhrase U message.text = true) : ¬ WaysAgree U chat lastPvId fsm s v message := by
  rintro ⟨hagree, -, hsettled⟩
  have hopen : fsm ≠ .cleared := fun he => by
    rw [he] at hpending
    cases hpending
  rw [afterButton_eq hadmin] at hagree hsettled
  rw [afterPhrase_eq hadmin hphrase hpending] at hagree
  rcases confirmAnswer_answers "Этот план уже зафиксирован." chat.taskSink chat.actor with ⟨answer, hanswer⟩ | ⟨hp, hcommitted⟩
  · rw [confirmPending, hanswer] at hagree
    exact hopen (Prod.mk.inj hagree).1
  · exact hopen (hsettled hp hcommitted)

/-- The tables are another matter: they differ only when somebody without a person record confirms a proposal. -/
theorem ways_stores (hadmin : chat.isAdmin = true) (hpending : fsm.pendingPvId = some v)
    (hphrase : isConfirmPhrase U message.text = true) (hlast : ∀ w ∈ lastPvId, w = v) :
    (afterButton chat fsm s v).2 = (afterPhrase U chat lastPvId fsm s message).2 ∧
      ((afterPhrase U chat lastPvId fsm s message).2 = (afterIntent U chat lastPvId fsm s).2 ↔
        chat.actor.isSome ∨ ¬ s.IsProposed v) := by
  rw [afterButton_eq hadmin, afterPhrase_eq hadmin hphrase hpending]
  refine ⟨rfl, ?_⟩
  have htarget : lastPvId.or fsm.pendingPvId = some v := by
    cases lastPvId with
    | none => exact hpending
    | some w => rw [hlast w rfl, Option.some_or]
  have hexec : canExecute (.confirm none) chat.isAdmin = true := by simp [canExecute, hadmin]
  simp only [afterIntent, leftBy, dispatchIntent, hexec, if_true, Option.none_or, htarget, run_bind]
  cases hactor : chat.actor with
  | some actor =>
    refine iff_of_true ?_ (Or.inl rfl)
    have hstore := confirmAnswer_store "План не найден или уже зафиксирован." (confirmPlan chat.taskSink v (some actor)) s
    rw [confirmLatest, ← hstore]
    rcases (confirmAnswer "План не найден или уже зафиксирован." (confirmPlan chat.taskSink v (some actor))).run s with
      ⟨_ | ⟨_, _⟩, s'⟩ <;> rfl
  | none =>
    simp only [confirmLatest, run_pure, Option.isSome_none, Bool.false_eq_true, false_or]
    rcases hrun : (confirmPlan chat.taskSink v none).run s with ⟨r, s'⟩
    rcases confirmPlan_cases hrun with ⟨hno, rfl, -⟩ | ⟨⟨pv, hv, hp⟩, hconfirmed, -⟩
    · exact iff_of_true rfl hno
    · refine iff_of_false (fun hsame => ?_) (not_not_intro ⟨pv, hv, hp⟩)
      have hsame : s' = s := hsame
      have hstatus := congrArg (fun t : Store => (t.planVersions.get? v).map PlanVersionRow.status) hsame
      simp only [hconfirmed.planVersions, OrdDict.get?_modify_self, hv, Option.map_some, hp] at hstatus
      cases hstatus

end Agreement

/-- An admin without a person record, in the edit loop over the proposal of a day of shooting. -/
def directorChat : Chat := ⟨true, none, .onWeekdays, 1, none, none⟩

theorem ways_never_agree_shooting :
    ¬ WaysAgree .plain directorChat none ⟨true, some 6⟩ proposedShooting 6 ⟨"Ок!", []⟩ :=
  ways_never_agree _ _ _ _ _ _ _ rfl rfl rfl

/-- The version is committed, and the next message is still taken for an edit of it. -/
theorem button_leaves_loop_armed : proposedShooting.IsProposed 6 ∧
    (afterButton directorChat ⟨true, some 6⟩ proposedShooting 6).2.IsCommitted 6 ∧
    (afterButton directorChat ⟨true, some 6⟩ proposedShooting 6).1 = ⟨true, some 6⟩ ∧
    ¬ WaysAgree .plain directorChat none ⟨true, some 6⟩ proposedShooting 6 ⟨"Ок!", []⟩ := by
  refine ⟨⟨_, rfl, rfl⟩, ⟨_, rfl⟩, rfl, fun h => ?_⟩
  have hfsm := congrArg Prod.fst h.phrase
  have hopen : (afterButton directorChat ⟨true, some 6⟩ proposedShooting 6).1 = ⟨true, some 6⟩ := rfl
  have hover : (afterPhrase .plain directorChat none ⟨true, some 6⟩ proposedShooting ⟨"Ок!", []⟩).1 = .cleared := rfl
  rw [hopen, hover] at hfsm
  cases hfsm

end Planner
