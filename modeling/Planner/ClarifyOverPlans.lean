import Planner.ClarifyButtons
import Planner.Updates

/-! A dialogue in the middle of the edit loop. Both keep their state in the one record of
the chat, and the dialogue ends by clearing it. -/

namespace Planner

open Program

/-- The edit loop is where it was, and a typed confirmation commits the pending version. -/
structure Undisturbed (v : UUID) (before after : Fsm) : Prop where
  pending : after.pendingPvId = some v
  armed : after.step = some .editing ↔ before.step = some .editing
  commits : ∀ (bot : Bot) (u : Update) (actor : Actor) agent (text : String) (store : Store),
    (actor.record.isNone && !actor.isAdmin) = false → isConfirmPhrase bot.tables text = true →
      bot.handleText u actor agent none text ⟨store, after⟩ =
        (Bot.perform u ((fun _ => {}) <$> confirmPending bot.taskSink v actor.record) ⟨store, after⟩, none)

namespace ClarifyEvent

variable (U : CharTables)

/-- The state of the chat after the event. -/
def next (fsm : Fsm) (e : ClarifyEvent) : Fsm := (e.outcome U fsm).1

/-- A capture is started, and the last event fills in the last field. -/
structure Completes (fsm : Fsm) (start : ClarifyEvent) (events : List ClarifyEvent) (last : ClarifyEvent) : Prop where
  starts : ∃ pending, start.input = .start pending
  finishes : last.Finishes U (Trace.after (next U) fsm (start :: events))

end ClarifyEvent

section Steps

variable {U : CharTables} {fsm : Fsm} {e : ClarifyEvent} {v : UUID}

@[simp] theorem asked_pending (fsm : Fsm) (options : List String) (field : KeyField) :
    (Clarify.asked fsm options field).pendingPvId = fsm.pendingPvId := by
  cases field <;> rfl

theorem next_of_finishes (h : e.Finishes U fsm) : e.next U fsm = {} := by
  obtain ⟨args, hfilled, hmissing⟩ := h
  exact (finishes_quietly hfilled hmissing).1

/-- Until the last field is filled in, the version stays pending. -/
theorem next_pending (h : ¬ e.Finishes U fsm) : (e.next U fsm).pendingPvId = fsm.pendingPvId := by
  by_cases hstart : ∃ pending, e.input = .start pending
  · obtain ⟨pending, hinput⟩ := hstart
    cases hmissing : Clarify.missing pending.args with
    | nil => rw [ClarifyEvent.next, starts_complete hinput hmissing]
    | cons field rest => rw [ClarifyEvent.next, (ClarifyEvent.starts hinput hmissing).1, asked_pending]
  · cases hfilled : e.filled U fsm with
    | none => exact (ClarifyEvent.idles hfilled fun pending hp => hstart ⟨pending, hp⟩).1.pending
    | some args =>
      cases hmissing : Clarify.missing args with
      | nil => exact absurd ⟨args, hfilled, hmissing⟩ h
      | cons field rest => rw [ClarifyEvent.next, (ClarifyEvent.asks hfilled hmissing).1, asked_pending]

/-- The plan is pending all along iff no capture is completed. -/
theorem pending_throughout_iff (hv : fsm.pendingPvId = some v) (events : List ClarifyEvent) :
    (∀ pre, pre <+: events → (Trace.after (ClarifyEvent.next U) fsm pre).pendingPvId = some v) ↔
      ∀ pre e, pre ++ [e] <+: events → ¬ e.Finishes U (Trace.after (ClarifyEvent.next U) fsm pre) := by
  refine Trace.always_iff (I := fun _ => True) trivial hv (fun _ _ _ => trivial) fun pre e _ hpre => ?_
  rw [Trace.after_snoc]
  constructor
  · intro hpending hfinishes
    rw [next_of_finishes hfinishes] at hpending
    cases hpending
  · intro hopen
    rw [next_pending hopen]
    exact hpre

/-- A phrase of confirmation is one only while a version is pending. -/
theorem handleText_pending (bot : Bot) (u : Update) (actor : Actor)
    (agent : Option (List (AgentMessage ToolUse) → Except String (Response ToolUse))) (text : String) (store : Store)
    (hknown : (actor.record.isNone && !actor.isAdmin) = false) (hphrase : isConfirmPhrase bot.tables text = true)
    (hv : fsm.pendingPvId = some v) : bot.handleText u actor agent none text ⟨store, fsm⟩ =
      (Bot.perform u ((fun _ => {}) <$> confirmPending bot.taskSink v actor.record) ⟨store, fsm⟩, none) := by
  rw [Bot.handleText, if_neg (by rw [hknown]; exact Bool.false_ne_true), if_pos hphrase]
  dsimp only
  rw [hv, Option.some_or]

theorem undisturbed_iff {before after : Fsm} : Undisturbed v before after ↔
    after.pendingPvId = some v ∧ (after.step = some .editing ↔ before.step = some .editing) :=
  ⟨fun h => ⟨h.pending, h.armed⟩, fun ⟨hv, harmed⟩ => ⟨hv, harmed, fun bot u actor agent text store hknown hphrase =>
    handleText_pending bot u actor agent text store hknown hphrase hv⟩⟩

end Steps

/-- Nothing is left of a pending version once a dialogue is complete, whatever the chat was at. -/
theorem dialogue_drops_plan (U : CharTables) (fsm : Fsm) (v : UUID) (start : ClarifyEvent) (events : List ClarifyEvent)
    (last : ClarifyEvent) (h : ClarifyEvent.Completes U fsm start events last) :
    Trace.after (ClarifyEvent.next U) fsm (start :: events ++ [last]) = {} ∧
      ¬ Undisturbed v fsm (Trace.after (ClarifyEvent.next U) fsm (start :: events ++ [last])) := by
  have hcleared : Trace.after (ClarifyEvent.next U) fsm (start :: events ++ [last]) = {} := by
    rw [Trace.after_snoc]
    exact next_of_finishes h.finishes
  rw [hcleared]
  refine ⟨rfl, fun hundisturbed => ?_⟩
  have hpending := hundisturbed.pending
  cases hpending

section Montage

/-- The edit loop over version 6. -/
def editingPlan : Fsm where
  step := some .editing
  pendingPvId := some 6

theorem montage_completes : ClarifyEvent.Completes .plain editingPlan montageAsked [] montageToday where
  starts := ⟨montagePending, rfl⟩
  finishes := by decide +kernel

theorem dialogue_drops_plan_montage :
    Trace.after (ClarifyEvent.next .plain) editingPlan ([montageAsked] ++ [montageToday]) = {} ∧
      ¬ Undisturbed 6 editingPlan (Trace.after (ClarifyEvent.next .plain) editingPlan ([montageAsked] ++ [montageToday])) :=
  dialogue_drops_plan .plain editingPlan 6 montageAsked [] montageToday montage_completes

/-- A task is captured in the middle of the edit loop, and the deadline is asked for. -/
theorem montage_drops_plan :
    ¬ ∀ (fsm : Fsm) (v : UUID) (start : ClarifyEvent) (events : List ClarifyEvent) (last : ClarifyEvent),
      fsm.pendingPvId = some v → ClarifyEvent.Completes .plain fsm start events last →
        Undisturbed v fsm (Trace.after (ClarifyEvent.next .plain) fsm (start :: events ++ [last])) := by
  intro h
  have hpending := (h editingPlan 6 montageAsked [] montageToday rfl montage_completes).pending
  have hcleared : (Trace.after (ClarifyEvent.next .plain) editingPlan [montageAsked, montageToday]).pendingPvId = none := by
    decide +kernel
  exact absurd (hcleared.symm.trans hpending) (nomatch ·)

end Montage

end Planner
