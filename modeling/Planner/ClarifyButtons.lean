import Planner.ClarifySafety

/-! What an old button means by the time it is pressed. The captures that wait one
after the other, and the keyboards sent for each, are counted beside the chat. -/

namespace Planner

open Program

/-- A keyboard of the chat, with the counts at the time. -/
structure Sent where
  field : KeyField
  keyboard : Keyboard
  started : Nat
  finished : Nat
  deriving DecidableEq, Repr

/-- The chat, how many captures were started and how many finished, and every
keyboard sent, the latest first. -/
structure Keyboards where
  fsm : Fsm := {}
  started : Nat := 0
  finished : Nat := 0
  sent : List Sent := []

def Fsm.options (fsm : Fsm) : KeyField → List String
  | .project => fsm.projOptions
  | .assignee => fsm.asgOptions
  | .deadline => []

/-- The press of a button for a field. -/
def KeyField.press : KeyField → Nat → Press
  | .project => .project
  | .assignee => .assignee
  | .deadline => .deadline

/-- The field that a press fills by itself. -/
def Press.field : Press → Option KeyField
  | .project _ => some .project
  | .assignee _ => some .assignee
  | .deadline _ => some .deadline
  | .newProject => none
  | .deadlineText => none

/-- The arguments with what the button shows; a number of days counts from the day of the press. -/
def Button.fill (b : Button) (today : Date) (args : PartialCapture) : PartialCapture :=
  match b.press with
  | .project _ => { args with project := b.text }
  | .assignee _ => { args with assignees := [b.text] }
  | .deadline days => { args with deadline := some (Date.isoformat (today + days)) }
  | .newProject => args
  | .deadlineText => args

namespace Clarify

def keyboardOf (options : List String) : KeyField → Keyboard
  | .project => optionsKb options .project [⟨"➕ Новый проект", .newProject⟩]
  | .assignee => optionsKb options .assignee []
  | .deadline => deadlineKb

end Clarify

namespace ClarifyEvent

variable (U : CharTables) (e : ClarifyEvent) (fsm : Fsm)

/-- The arguments that wait after the event, if it has brought any. -/
def given : Option PartialCapture :=
  match e.input with
  | .start pending => some pending.args
  | _ => e.filled U fsm

/-- The field whose keyboard is sent. -/
def field : Option KeyField := (e.given U fsm).bind fun args => (Clarify.missing args).head?

instance : Decidable (e.Finishes U fsm) :=
  inferInstanceAs (Decidable (∃ args ∈ e.filled U fsm, Clarify.missing args = []))

/-- The press is turned down, with nothing changed. -/
def Rejected : Prop :=
  e.outcome U fsm = (fsm, .ok (some (.alert "Вариант не найден."))) ∧ e.tables U fsm = e.store

end ClarifyEvent

namespace Keyboards

variable (U : CharTables)

def step (d : Keyboards) (e : ClarifyEvent) : Keyboards :=
  let started := match e.input with
    | .start _ => d.started + 1
    | _ => d.started
  let finished := if e.Finishes U d.fsm then d.finished + 1 else d.finished
  { fsm := (e.outcome U d.fsm).1
    started := started
    finished := finished
    sent := match (e.outcome U d.fsm).2, e.field U d.fsm with
      | .ok (some (.question _ keyboard)), some field => ⟨field, keyboard, started, finished⟩ :: d.sent
      | _, _ => d.sent }

/-- The capture the keyboard was sent for still waits. -/
def Waits (d : Keyboards) (k : Sent) : Prop := k.started = d.started ∧ k.finished = d.finished

/-- The latest keyboard for a field since a capture was finished. -/
def latest (d : Keyboards) (field : KeyField) : Option Sent :=
  d.sent.find? fun k => k.field = field ∧ k.finished = d.finished

/-- A button of the keyboard is pressed: either to no effect, or what it shows is
filled in, in the capture that the keyboard was sent for. -/
def Means (d : Keyboards) (k : Sent) (b : Button) (e : ClarifyEvent) : Prop :=
  match e.filled U d.fsm with
  | none => e.Rejected U d.fsm
  | some args => d.Waits k ∧ args = b.fill e.chat.today d.fsm.capture

/-- The button is not out of date: its capture waits, and the latest keyboard shows the
same in its place; or that keyboard has no such button. -/
def UpToDate (d : Keyboards) (k : Sent) (b : Button) : Prop :=
  match b.press with
  | .deadline _ => d.Waits k
  | press => ∀ field ∈ press.field, ∀ now ∈ d.latest field, ∀ b' ∈ now.keyboard.flatten, b'.press = press →
      d.Waits k ∧ b'.text = b.text

end Keyboards

namespace Clarify

theorem question_eq (options : List String) (field : KeyField) :
    ∃ text, question options field = .question text (keyboardOf options field) := by
  cases field <;> exact ⟨_, rfl⟩

theorem mem_optionsKb {options : List String} {press : Nat → Press} {extra : List Button} {b : Button} :
    b ∈ (optionsKb options press extra).flatten ↔
      (∃ idx < maxOptions, options[idx]? = some b.text ∧ b.press = press idx) ∨ b ∈ extra := by
  rw [optionsKb, List.flatten_append, List.mem_append]
  refine or_congr ?_ ?_
  · simp only [List.mem_flatten, List.mem_map, Prod.exists, List.mk_mem_zipIdx_iff_getElem?, List.getElem?_take]
    constructor
    · rintro ⟨_, ⟨text, idx, hget, rfl⟩, hb⟩
      obtain rfl := List.mem_singleton.mp hb
      split at hget
      · rename_i hlt
        exact ⟨idx, hlt, hget, rfl⟩
      · cases hget
    · rintro ⟨idx, hlt, hget, hpress⟩
      refine ⟨[b], ⟨b.text, idx, ?_, ?_⟩, List.mem_singleton_self b⟩
      · rw [if_pos hlt]
        exact hget
      · rw [← hpress]
  · simp only [List.mem_flatten, List.mem_map]
    constructor
    · rintro ⟨_, ⟨b', hb', rfl⟩, hb⟩
      rwa [List.mem_singleton.mp hb]
    · exact fun hb => ⟨[b], ⟨b, hb, rfl⟩, List.mem_singleton_self b⟩

theorem sendFieldKeyboard_complete {args : PartialCapture} (fsm : Fsm) (h : missing args = []) :
    sendFieldKeyboard args fsm = Pure.pure (fsm, .error .key) := by
  rw [sendFieldKeyboard, h]

theorem finalize_run (U : CharTables) (chat : Chat) (args : PartialCapture) (s : Store) :
    ∃ answer s', (finalize U chat args).run s = (.ok ({}, answer), s') ∧ ∀ text keyboard, answer ≠ .ok (.question text keyboard) := by
  rw [finalize]
  split
  · generalize (Program.ofExcept (intentOf args) >>= fun intent =>
      captureTask U chat.taskSink intent chat.actor) = capture
    rw [run_bind, run_attempt]
    rcases capture.run s with ⟨err | result, s'⟩
    · exact ⟨.error err, s', rfl, fun _ _ h => by cases h⟩
    · exact ⟨.ok (.captured result), s', rfl, fun _ _ h => by cases h⟩
  · exact ⟨.ok (.text "Только админ может ставить задачи."), s, rfl, fun _ _ h => by cases h⟩

end Clarify

section Steps

variable {U : CharTables} {e : ClarifyEvent} {fsm : Fsm} {d : Keyboards} {args : PartialCapture}

theorem asked_options (fsm : Fsm) (options : List String) (field field' : KeyField) :
    (Clarify.asked fsm options field).options field' =
      if field' = field ∧ field ≠ .deadline then options else fsm.options field' := by
  cases field <;> cases field' <;> rfl

/-- The state is cleared with the last field, and no keyboard follows. -/
theorem finishes_quietly (h : e.filled U fsm = some args) (hmissing : Clarify.missing args = []) :
    (e.outcome U fsm).1 = {} ∧ ∀ text keyboard, (e.outcome U fsm).2 ≠ .ok (some (.question text keyboard)) := by
  obtain ⟨answer, s', hrun, hanswer⟩ := Clarify.finalize_run U e.chat args e.store
  have hfill : (Clarify.afterFill U e.chat args fsm).run e.store = (.ok ({}, answer), s') := by
    rw [Clarify.afterFill, if_pos hmissing, hrun]
  obtain ⟨houtcome, -⟩ := ClarifyEvent.outcome_filled h hfill
  rw [houtcome]
  refine ⟨rfl, fun text keyboard hquestion => ?_⟩
  cases answer with
  | error err => cases hquestion
  | ok answer => exact hanswer text keyboard (congrArg Except.ok (Option.some.inj (Except.ok.inj hquestion)))

theorem starts_complete {pending : PendingCapture} (h : e.input = .start pending)
    (hmissing : Clarify.missing pending.args = []) :
    e.outcome U fsm = ({ fsm with capture := pending.args }, .error .key) := by
  have hrun : (e.handle U fsm).run e.store = (.ok ({ fsm with capture := pending.args }, .error .key), e.store) := by
    rw [ClarifyEvent.handle, h]
    dsimp only
    rw [Clarify.startCaptureClarify, Clarify.sendFieldKeyboard_complete _ hmissing]
    rfl
  exact (ClarifyEvent.outcome_of_run hrun).1

theorem given_of_filled (h : e.filled U fsm = some args) : e.given U fsm = some args := by
  rw [ClarifyEvent.given]
  split
  · rename_i pending hinput
    exact absurd hinput (filled_not_start h pending)
  · exact h

theorem not_finishes_start {pending : PendingCapture} (h : e.input = .start pending) : ¬ e.Finishes U fsm := by
  rintro ⟨args, hargs, -⟩
  exact filled_not_start hargs pending h

/-- What an event does to the keyboards: one more is sent, or the capture is finished, or neither. -/
inductive Keyboards.Effect (d d' : Keyboards) : Prop
  | asks (options : List String) (field : KeyField) (hsent : d'.sent =
        ⟨field, Clarify.keyboardOf options field, d'.started, d'.finished⟩ :: d.sent) (hfinished : d'.finished = d.finished)
      (hoptions : ∀ field', d'.fsm.options field' =
        if field' = field ∧ field ≠ .deadline then options else d.fsm.options field')
  | finishes (hsent : d'.sent = d.sent) (hfinished : d'.finished = d.finished + 1) (hfsm : d'.fsm = {})
  | idles (hsent : d'.sent = d.sent) (hfinished : d'.finished = d.finished)
      (hoptions : ∀ field, d'.fsm.options field = d.fsm.options field)

theorem effect_of_asked {options : List String} {field : KeyField} (hfield : e.field U d.fsm = some field)
    (hnot : ¬ e.Finishes U d.fsm) (houtcome : e.outcome U d.fsm =
      (Clarify.asked { d.fsm with capture := args } options field, .ok (some (Clarify.question options field)))) :
    d.Effect (d.step U e) := by
  obtain ⟨text, hquestion⟩ := Clarify.question_eq options field
  have hfinished : (d.step U e).finished = d.finished := if_neg hnot
  refine .asks options field ?_ hfinished ?_
  · simp only [Keyboards.step, houtcome, hquestion, hfield]
  · intro field'
    rw [Keyboards.step]
    dsimp only
    rw [houtcome, asked_options]
    rfl

theorem effect_of_idle (hsent : (d.step U e).sent = d.sent) (hnot : ¬ e.Finishes U d.fsm)
    (hprojects : (e.outcome U d.fsm).1.projOptions = d.fsm.projOptions)
    (hassignees : (e.outcome U d.fsm).1.asgOptions = d.fsm.asgOptions) : d.Effect (d.step U e) := by
  refine .idles hsent (if_neg hnot) fun field => ?_
  cases field with
  | project => exact hprojects
  | assignee => exact hassignees
  | deadline => rfl

theorem step_effect (e : ClarifyEvent) (d : Keyboards) : d.Effect (d.step U e) := by
  by_cases hstart : ∃ pending, e.input = .start pending
  · obtain ⟨pending, hinput⟩ := hstart
    have hgiven : e.given U d.fsm = some pending.args := by rw [ClarifyEvent.given, hinput]
    cases hmissing : Clarify.missing pending.args with
    | nil =>
      have houtcome := @starts_complete U e d.fsm pending hinput hmissing
      refine effect_of_idle ?_ (not_finishes_start hinput) (by rw [houtcome]) (by rw [houtcome])
      simp only [Keyboards.step, houtcome]
    | cons field rest =>
      have hfield : e.field U d.fsm = some field := by
        rw [ClarifyEvent.field, hgiven, Option.bind_some, hmissing, List.head?_cons]
      exact effect_of_asked hfield (not_finishes_start hinput) (ClarifyEvent.starts hinput hmissing).1
  have hinput : ∀ pending, e.input ≠ .start pending := fun pending hp => hstart ⟨pending, hp⟩
  cases hfilled : e.filled U d.fsm with
  | none =>
    have hidle := (ClarifyEvent.idles hfilled hinput).1
    have hfield : e.field U d.fsm = none := by
      rw [ClarifyEvent.field, ClarifyEvent.given]
      split
      · rename_i pending hp
        exact absurd hp (hinput pending)
      · rw [hfilled, Option.bind_none]
    refine effect_of_idle ?_ ?_ hidle.projects hidle.assignees
    · rw [Keyboards.step]
      dsimp only
      split
      · rename_i field _ hsome
        rw [hfield] at hsome
        cases hsome
      · rfl
    · rintro ⟨args, hargs, -⟩
      rw [hfilled] at hargs
      cases hargs
  | some args =>
    have hgiven := given_of_filled hfilled
    cases hmissing : Clarify.missing args with
    | nil =>
      obtain ⟨hfsm, hquiet⟩ := finishes_quietly hfilled hmissing
      refine .finishes ?_ (if_pos ⟨args, hfilled, hmissing⟩) hfsm
      rw [Keyboards.step]
      dsimp only
      split
      · rename_i hquestion _
        exact absurd hquestion (hquiet _ _)
      · rfl
    | cons field rest =>
      have hfield : e.field U d.fsm = some field := by
        rw [ClarifyEvent.field, hgiven, Option.bind_some, hmissing, List.head?_cons]
      refine effect_of_asked hfield ?_ (ClarifyEvent.asks hfilled hmissing).1
      rintro ⟨args', hargs, hnone⟩
      obtain rfl := Option.some.inj (hfilled.symm.trans hargs)
      rw [hmissing] at hnone
      cases hnone

end Steps

/-- The options in the state of the chat are those of the latest keyboard for the field. -/
structure Keyboards.Current (d : Keyboards) : Prop where
  past : ∀ k ∈ d.sent, k.finished ≤ d.finished
  genuine : ∀ k ∈ d.sent, ∃ options, k.keyboard = Clarify.keyboardOf options k.field
  shown : ∀ field k, d.latest field = some k → k.keyboard = Clarify.keyboardOf (d.fsm.options field) field
  blank : ∀ field, d.latest field = none → d.fsm.options field = []

section Latest

variable {d d' : Keyboards} {options : List String} {field field' : KeyField}

theorem latest_ask (hsent : d'.sent = ⟨field, Clarify.keyboardOf options field, d'.started, d'.finished⟩ :: d.sent) :
    d'.latest field = some ⟨field, Clarify.keyboardOf options field, d'.started, d'.finished⟩ := by
  rw [Keyboards.latest, hsent, List.find?_cons_of_pos]
  simp

theorem latest_ask_of_ne (hsent : d'.sent = ⟨field, Clarify.keyboardOf options field, d'.started, d'.finished⟩ :: d.sent)
    (hfinished : d'.finished = d.finished) (hne : field' ≠ field) : d'.latest field' = d.latest field' := by
  rw [Keyboards.latest, hsent, List.find?_cons_of_neg, hfinished]
  · rfl
  · simp [hne.symm]

theorem latest_finish (hpast : ∀ k ∈ d.sent, k.finished ≤ d.finished) (hsent : d'.sent = d.sent)
    (hfinished : d'.finished = d.finished + 1) (field : KeyField) : d'.latest field = none := by
  rw [Keyboards.latest, hsent, List.find?_eq_none]
  intro k hk hlive
  have hbefore := hpast k hk
  have hnow := (of_decide_eq_true hlive).2
  omega

theorem latest_idle (hsent : d'.sent = d.sent) (hfinished : d'.finished = d.finished) (field : KeyField) :
    d'.latest field = d.latest field := by
  rw [Keyboards.latest, hsent, hfinished]
  rfl

end Latest

theorem Keyboards.Effect.current {d d' : Keyboards} (h : d.Effect d') (hd : d.Current) : d'.Current := by
  cases h with
  | asks options field hsent hfinished hoptions =>
    refine ⟨?_, ?_, ?_, ?_⟩
    · intro k hk
      rw [hsent] at hk
      rcases List.mem_cons.mp hk with rfl | hk
      · exact le_refl _
      · rw [hfinished]
        exact hd.past k hk
    · intro k hk
      rw [hsent] at hk
      rcases List.mem_cons.mp hk with rfl | hk
      · exact ⟨options, rfl⟩
      · exact hd.genuine k hk
    · intro field' k hk
      rw [hoptions]
      by_cases hfield : field' = field
      · subst hfield
        obtain rfl := Option.some.inj ((latest_ask hsent).symm.trans hk)
        cases field' <;> rfl
      · rw [latest_ask_of_ne hsent hfinished hfield] at hk
        rw [if_neg fun hboth => hfield hboth.1]
        exact hd.shown field' k hk
    · intro field' hnone
      rw [hoptions]
      by_cases hfield : field' = field
      · subst hfield
        rw [latest_ask hsent] at hnone
        cases hnone
      · rw [latest_ask_of_ne hsent hfinished hfield] at hnone
        rw [if_neg fun hboth => hfield hboth.1]
        exact hd.blank field' hnone
  | finishes hsent hfinished hfsm =>
    refine ⟨?_, ?_, ?_, ?_⟩
    · intro k hk
      rw [hsent] at hk
      exact (hd.past k hk).trans (by omega)
    · rw [hsent]
      exact hd.genuine
    · intro field k hk
      rw [latest_finish hd.past hsent hfinished] at hk
      cases hk
    · intro field _
      rw [hfsm]
      cases field <;> rfl
  | idles hsent hfinished hoptions =>
    refine ⟨?_, ?_, ?_, ?_⟩
    · rw [hsent, hfinished]
      exact hd.past
    · rw [hsent]
      exact hd.genuine
    · intro field k hk
      rw [latest_idle hsent hfinished] at hk
      rw [hoptions]
      exact hd.shown field k hk
    · intro field hnone
      rw [latest_idle hsent hfinished] at hnone
      rw [hoptions]
      exact hd.blank field hnone

theorem current_after (U : CharTables) (events : List ClarifyEvent) :
    (Trace.after (Keyboards.step U) {} events).Current := by
  refine Trace.after_keeps _ (fun d e hd => (step_effect e d).current hd) ?_ events
  constructor
  · intro k hk
    cases hk
  · intro k hk
    cases hk
  · intro field k hk
    cases hk
  · intro field _
    cases field <;> rfl

section Buttons

variable {U : CharTables} {e : ClarifyEvent} {fsm : Fsm} {options : List String} {b : Button} {field : KeyField} {idx : Nat}

theorem shown_of_mem {field' : KeyField} (hb : b ∈ (Clarify.keyboardOf options field').flatten)
    (hpress : b.press = field.press idx) (hfield : field ≠ .deadline) :
    idx < Clarify.maxOptions ∧ options[idx]? = some b.text := by
  cases field' with
  | project =>
    rcases Clarify.mem_optionsKb.mp hb with ⟨i, hi, hget, hp⟩ | hb
    · rw [hpress] at hp
      cases field <;> cases hp
      exact ⟨hi, hget⟩
    · obtain rfl := List.mem_singleton.mp hb
      cases field <;> cases hpress
  | assignee =>
    rcases Clarify.mem_optionsKb.mp hb with ⟨i, hi, hget, hp⟩ | hb
    · rw [hpress] at hp
      cases field <;> cases hp
      exact ⟨hi, hget⟩
    · cases hb
  | deadline =>
    have hdays : ∀ b ∈ Clarify.deadlineKb.flatten, b.press.field = some .deadline ∨ b.press = .deadlineText := by decide
    rcases hdays b hb with hp | hp
    · rw [hpress] at hp
      cases field <;> cases hp
      exact absurd rfl hfield
    · rw [hpress] at hp
      cases field <;> cases hp

theorem mem_of_shown {text : String} (hidx : idx < Clarify.maxOptions) (hget : options[idx]? = some text)
    (hfield : field ≠ .deadline) : ⟨text, field.press idx⟩ ∈ (Clarify.keyboardOf options field).flatten := by
  cases field with
  | project => exact Clarify.mem_optionsKb.mpr (Or.inl ⟨idx, hidx, hget, rfl⟩)
  | assignee => exact Clarify.mem_optionsKb.mpr (Or.inl ⟨idx, hidx, hget, rfl⟩)
  | deadline => exact absurd rfl hfield

theorem filled_pick (he : e.input = .press (field.press idx)) (hfield : field ≠ .deadline) :
    e.filled U fsm = (fsm.options field)[idx]?.map fun opt =>
      (Button.mk opt (field.press idx)).fill e.chat.today fsm.capture := by
  rw [ClarifyEvent.filled, he]
  cases field with
  | project => rfl
  | assignee => rfl
  | deadline => exact absurd rfl hfield

theorem rejects_pick (he : e.input = .press (field.press idx)) (hfield : field ≠ .deadline)
    (h : (fsm.options field)[idx]? = none) : e.Rejected U fsm := by
  have hrun : (e.handle U fsm).run e.store = (.ok (fsm, .ok (some (.alert "Вариант не найден."))), e.store) := by
    rw [ClarifyEvent.handle, he]
    cases field with
    | project =>
      dsimp only [KeyField.press, Clarify.handlePress]
      rw [Clarify.handlePickProject, Clarify.pickFromOptions, show fsm.projOptions[idx]? = none from h]
      rfl
    | assignee =>
      dsimp only [KeyField.press, Clarify.handlePress]
      rw [Clarify.handlePickAssignee, Clarify.pickFromOptions, show fsm.asgOptions[idx]? = none from h]
      rfl
    | deadline => exact absurd rfl hfield
  exact ClarifyEvent.outcome_of_run hrun

theorem fill_inj {today : Date} {args : PartialCapture} {text : String} (hpress : b.press = field.press idx)
    (hfield : field ≠ .deadline) :
    (Button.mk text (field.press idx)).fill today args = b.fill today args ↔ text = b.text := by
  rw [Button.fill, Button.fill, hpress]
  cases field with
  | project => exact ⟨fun h => congrArg PartialCapture.project h, fun h => by rw [h]⟩
  | assignee => exact ⟨fun h => List.head_eq_of_cons_eq (congrArg PartialCapture.assignees h), fun h => by rw [h]⟩
  | deadline => exact absurd rfl hfield

end Buttons

namespace Keyboards

variable {U : CharTables} {d : Keyboards} {k : Sent} {b : Button} {e : ClarifyEvent}

theorem upToDate_pick {field : KeyField} {idx : Nat} (hpress : b.press = field.press idx) (hfield : field ≠ .deadline) :
    d.UpToDate k b ↔ ∀ now, d.latest field = some now → ∀ b' ∈ now.keyboard.flatten, b'.press = field.press idx →
      d.Waits k ∧ b'.text = b.text := by
  rw [UpToDate, hpress]
  cases field with
  | project => exact ⟨fun h => h .project rfl, fun h field hf => by cases hf; exact h⟩
  | assignee => exact ⟨fun h => h .assignee rfl, fun h field hf => by cases hf; exact h⟩
  | deadline => exact absurd rfl hfield

theorem means_deadline {days : Nat} (hpress : b.press = .deadline days) (he : e.input = .press b.press) :
    d.Means U k b e ↔ d.UpToDate k b := by
  have hfilled : e.filled U d.fsm = some (b.fill e.chat.today d.fsm.capture) := by
    rw [ClarifyEvent.filled, he, Button.fill, hpress]
  rw [Means, UpToDate, hfilled, hpress]
  exact and_iff_left rfl

theorem means_pick (hd : d.Current) (hk : k ∈ d.sent) (hb : b ∈ k.keyboard.flatten) {field : KeyField} {idx : Nat}
    (hpress : b.press = field.press idx) (hfield : field ≠ .deadline) (he : e.input = .press b.press) :
    d.Means U k b e ↔ d.UpToDate k b := by
  rw [hpress] at he
  rw [upToDate_pick hpress hfield, Means, filled_pick he hfield]
  cases hopt : (d.fsm.options field)[idx]? with
  | none =>
    refine iff_of_true (rejects_pick he hfield hopt) fun now hnow b' hb' hpress' => ?_
    rw [hd.shown field now hnow] at hb'
    have hshown := (shown_of_mem hb' hpress' hfield).2
    rw [hopt] at hshown
    cases hshown
  | some opt =>
    obtain ⟨options, hgenuine⟩ := hd.genuine k hk
    rw [hgenuine] at hb
    have hidx := (shown_of_mem hb hpress hfield).1
    dsimp only [Option.map_some]
    rw [fill_inj hpress hfield]
    constructor
    · rintro ⟨hwaits, htext⟩ now hnow b' hb' hpress'
      rw [hd.shown field now hnow] at hb'
      have hshown := (shown_of_mem hb' hpress' hfield).2
      rw [hopt] at hshown
      exact ⟨hwaits, (Option.some.inj hshown).symm.trans htext⟩
    · intro h
      cases hlatest : d.latest field with
      | none =>
        rw [hd.blank field hlatest] at hopt
        cases hopt
      | some now =>
        refine h now hlatest ⟨opt, field.press idx⟩ ?_ rfl
        rw [hd.shown field now hlatest]
        exact mem_of_shown hidx hopt hfield

end Keyboards

/-- A button means what it shows iff it is not out of date. -/
theorem button_means_iff (U : CharTables) (events : List ClarifyEvent) (k : Sent) (b : Button) (e : ClarifyEvent)
    (hk : k ∈ (Trace.after (Keyboards.step U) {} events).sent) (hb : b ∈ k.keyboard.flatten)
    (hoption : b.press.field.isSome) (he : e.input = .press b.press) :
    (Trace.after (Keyboards.step U) {} events).Means U k b e ↔ (Trace.after (Keyboards.step U) {} events).UpToDate k b := by
  have hd := current_after U events
  cases hpress : b.press with
  | project idx => exact Keyboards.means_pick hd hk hb (show b.press = KeyField.press .project idx from hpress) (by decide) he
  | assignee idx => exact Keyboards.means_pick hd hk hb (show b.press = KeyField.press .assignee idx from hpress) (by decide) he
  | deadline days => exact Keyboards.means_deadline hpress he
  | newProject =>
    rw [hpress] at hoption
    cases hoption
  | deadlineText =>
    rw [hpress] at hoption
    cases hoption

section Montage

/-- Only the project is missing. -/
def homeless (title : String) : PendingCapture :=
  { montagePending with title := title, project := "", deadline := some "2026-01-05" }

def montageHomeless : ClarifyEvent := ⟨producer, montageTeam, .start (homeless "Монтаж")⟩

def clipPressed : ClarifyEvent := ⟨producer, montageTeam, .press (.project 1)⟩

/-- With a project more. -/
def shootingTeam : Store where
  people := montageTeam.people
  projects := montageTeam.projects.insert 5 { montageProject with title := "Съёмка" }
  nextId := 6

def titlesHomeless : ClarifyEvent := ⟨producer, shootingTeam, .start (homeless "Титры")⟩

/-- The keyboard of the first capture. -/
def montageKeyboard : Sent where
  field := .project
  keyboard := Clarify.keyboardOf ["Каталог", "Ролик"] .project
  started := 1
  finished := 0

theorem button_means_iff_montage :
    (Trace.after (Keyboards.step .plain) {} [montageHomeless]).Means .plain montageKeyboard ⟨"Ролик", .project 1⟩ clipPressed ↔
      (Trace.after (Keyboards.step .plain) {} [montageHomeless]).UpToDate montageKeyboard ⟨"Ролик", .project 1⟩ :=
  button_means_iff .plain [montageHomeless] montageKeyboard ⟨"Ролик", .project 1⟩ clipPressed
    (by decide +kernel) (by decide +kernel) rfl rfl

/-- The first keyboard is pressed when the second capture waits and a project has
come: the button that shows one project picks another. -/
theorem old_button_misleads :
    ¬ ∀ (events : List ClarifyEvent) (k : Sent) (b : Button) (e : ClarifyEvent),
      k ∈ (Trace.after (Keyboards.step .plain) {} events).sent → b ∈ k.keyboard.flatten → b.press.field.isSome →
        e.input = .press b.press → (Trace.after (Keyboards.step .plain) {} events).Means .plain k b e := by
  intro h
  have hmeans := h [montageHomeless, clipPressed, titlesHomeless] montageKeyboard ⟨"Ролик", .project 1⟩ clipPressed
    (by decide +kernel) (by decide +kernel) rfl rfl
  have hfilled : clipPressed.filled .plain (Trace.after (Keyboards.step .plain) {}
      [montageHomeless, clipPressed, titlesHomeless]).fsm =
        some { (homeless "Титры").args with project := "Каталог" } := by decide +kernel
  rw [Keyboards.Means, hfilled] at hmeans
  exact absurd (congrArg PartialCapture.project hmeans.2) (by decide)

end Montage

end Planner
