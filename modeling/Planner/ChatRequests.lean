import Planner.ActTables
import Planner.EditLoopRuns
import Planner.OperationRuns

/-! What the messages of the chats come down to: proposals, the retirement of one that an
edit has replaced, confirmations, captures and assignments, in any order. -/

namespace Planner

open Program

inductive Request
  | propose (solver : GreedySolver) (intent : AddProjectIntent) (actor : Option PersonRecord) (today : Date)
    (sink : Option ProjectSink)
  | retire (old : Option UUID) (new : UUID)
  | confirm (sink : Option TaskSink) (v : UUID) (actor : Option PersonRecord)
  | capture (sink : Option TaskSink) (intent : CaptureTaskIntent) (actor : Option PersonRecord)
  | assign (taskRef personName : String) (actorId : Option UUID)

namespace Request

/-- Who is entered in the audit log. -/
def actorId : Request → Option UUID
  | .propose _ _ actor _ _ => actor.map PersonRecord.id
  | .retire _ _ => none
  | .confirm _ _ actor => actor.map PersonRecord.id
  | .capture _ _ actor => actor.map PersonRecord.id
  | .assign _ _ actorId => actorId

/-- The tables afterwards, whatever the answer is. -/
def perform (U : CharTables) (s : Store) : Request → Store
  | .propose solver intent actor today sink => ((buildAddProjectReply solver intent actor today sink).run s).2
  | .retire old new => ((retireReplaced old new).run s).2
  | .confirm sink v actor => ((confirmPlan sink v actor).run s).2
  | .capture sink intent actor => ((captureTask U sink intent actor).run s).2
  | .assign taskRef personName actorId => ((Planner.buildAssignReply U taskRef personName actorId).run s).2

end Request

section Messages

variable {U : CharTables} {chat : Chat}

/-- The tables after a run of requests of one actor. -/
def ComesTo (U : CharTables) (actorId : Option UUID) (s s' : Store) : Prop :=
  ∃ reqs : List Request, s' = Trace.after (Request.perform U) s reqs ∧ ∀ r ∈ reqs, r.actorId = none ∨ r.actorId = actorId

theorem ComesTo.refl (U : CharTables) (actorId : Option UUID) (s : Store) : ComesTo U actorId s s :=
  ⟨[], rfl, by simp⟩

theorem ComesTo.trans {actorId : Option UUID} {s t u : Store} (h : ComesTo U actorId s t) (h' : ComesTo U actorId t u) :
    ComesTo U actorId s u := by
  obtain ⟨reqs, rfl, hreqs⟩ := h
  obtain ⟨later, rfl, hlater⟩ := h'
  refine ⟨reqs ++ later, (Trace.after_append _ _ _ _).symm, fun r hr => ?_⟩
  rcases List.mem_append.mp hr with hr | hr
  · exact hreqs r hr
  · exact hlater r hr

theorem ComesTo.one {s : Store} (r : Request) : ComesTo U r.actorId s (r.perform U s) :=
  ⟨[r], rfl, fun _ hr => Or.inr (congrArg Request.actorId (List.mem_singleton.mp hr))⟩

theorem confirmAnswer_comes (already : String) (sink : Option TaskSink) (v : UUID) (actor : Option PersonRecord) (s : Store) :
    ComesTo U (actor.map PersonRecord.id) s ((confirmAnswer already (confirmPlan sink v actor)).run s).2 := by
  rw [confirmAnswer_store]
  exact .one (.confirm sink v actor)

theorem dispatchIntent_comes (lastPvId : Option UUID) (fsm : ChatState) (intent : Intent) (s : Store) :
    ComesTo U (chat.actor.map PersonRecord.id) s ((dispatchIntent U chat lastPvId fsm intent).run s).2 := by
  unfold dispatchIntent
  split
  swap
  · exact .refl _ _ s
  split
  · -- a confirmation
    rename_i pvId _ _
    rw [run_bind_quiet _ fun _ _ => rfl]
    unfold confirmLatest
    split
    · exact .refl _ _ s
    · exact .refl _ _ s
    · rename_i target actor _ hactor
      rw [hactor]
      exact confirmAnswer_comes _ _ _ (some actor) s
  · rename_i intent _
    rw [run_bind_quiet _ fun _ _ => rfl]
    exact .one (.capture chat.taskSink intent chat.actor)
  · rename_i taskRef personName actor hactor _
    rw [run_bind_quiet _ fun _ _ => rfl, hactor]
    exact .one (.assign taskRef personName (some actor.id))
  · -- a proposal
    rename_i intent actor hactor _
    have hone := @ComesTo.one U s (.propose chat.solver intent (some actor) chat.today chat.projectSink)
    rw [Request.perform] at hone
    rw [run_bind, hactor]
    generalize (buildAddProjectReply chat.solver intent (some actor) chat.today chat.projectSink).run s = outcome at hone ⊢
    rcases outcome with ⟨_ | _ | _, s'⟩
    · exact hone
    · exact hone
    · exact hone
  · exact .refl _ _ s

theorem dispatchAll_comes (lastPvId : Option UUID) (intents : List Intent) (fsm : ChatState) (lastPv : Option UUID)
    (s : Store) : ComesTo U (chat.actor.map PersonRecord.id) s ((dispatchAll U chat lastPvId intents fsm lastPv).run s).2 := by
  induction intents generalizing fsm lastPv s with
  | nil => exact .refl _ _ s
  | cons intent rest ih =>
    have hfirst := @dispatchIntent_comes U chat lastPvId fsm intent s
    rw [dispatchAll, run_bind, run_attempt]
    generalize (dispatchIntent U chat lastPvId fsm intent).run s = outcome at hfirst ⊢
    rcases outcome with ⟨_ | ⟨fsm', pv⟩, s'⟩
    · exact hfirst
    · exact hfirst.trans (ih fsm' (pv.or lastPv) s')

theorem handleText_comes (lastPvId : Option UUID) (fsm : ChatState) (message : EditMessage) (s : Store) :
    ComesTo U (chat.actor.map PersonRecord.id) s ((handleText U chat lastPvId fsm message).run s).2 := by
  unfold handleText
  split
  · exact .refl _ _ s
  · split
    · rename_i pending _
      have hconfirm := @confirmAnswer_comes U "Этот план уже зафиксирован." chat.taskSink pending chat.actor s
      rw [run_bind, run_attempt, confirmPending]
      generalize (confirmAnswer "Этот план уже зафиксирован." (confirmPlan chat.taskSink pending chat.actor)).run s = outcome
        at hconfirm ⊢
      rcases outcome with ⟨_ | _, s'⟩
      · exact hconfirm
      · exact hconfirm
    · exact dispatchAll_comes _ _ _ _ s

/-- An edit is a run of requests, the retirement of the replaced version the last of them. -/
theorem handleEdit_comes (fsm : ChatState) (message : EditMessage) (s : Store) :
    ComesTo U (chat.actor.map PersonRecord.id) s ((handleEdit U chat fsm message).run s).2 := by
  unfold handleEdit
  split
  · exact .refl _ _ s
  · have htext := @handleText_comes U chat fsm.pendingPvId fsm message s
    rw [run_bind]
    generalize (handleText U chat fsm.pendingPvId fsm message).run s = outcome at htext ⊢
    rcases outcome with ⟨e | ⟨fsm', r⟩, s'⟩
    · exact htext
    · rcases r with e | _ | newPvId
      · exact htext
      · exact htext
      · refine htext.trans ⟨[.retire fsm.pendingPvId newPvId], ?_, fun r hr => Or.inl ?_⟩
        · dsimp only
          rw [run_bind, run_attempt, Trace.after_cons, Trace.after_nil, Request.perform]
          rcases (retireReplaced fsm.pendingPvId newPvId).run s' with ⟨_ | _, s''⟩ <;> rfl
        · obtain rfl := List.mem_singleton.mp hr
          rfl

end Messages

end Planner
