import Planner.ClarifyRuns
import Planner.TurnFiling

/-! No order of events makes the dialogue raise or mix up titles, as long as what
completes a capture is one. -/

namespace Planner

open Program

/-- The chat, and the titles of the captures started since the last one finished. -/
structure Dialogue where
  fsm : Fsm := {}
  started : List String := []

namespace ClarifyEvent

variable (U : CharTables) (e : ClarifyEvent) (fsm : Fsm)

/-- What the completed arguments and a typed date have to be like. -/
structure Fits : Prop where
  complete : ∀ args ∈ e.filled U fsm, Clarify.missing args = [] → e.chat.isAdmin = true → Clarify.Complete args
  readable : e.Readable U fsm

/-- The tables are sound, the sender is who he says, and a capture is started
only if something is missing. -/
structure Possible : Prop where
  keys : e.store.TaskKeys
  known : e.store.knows (e.chat.actor.map PersonRecord.id)
  lacking : ∀ pending, e.input = .start pending → Clarify.missing pending.args ≠ []

end ClarifyEvent

namespace Dialogue

variable (U : CharTables)

def step (d : Dialogue) (e : ClarifyEvent) : Dialogue where
  fsm := (e.outcome U d.fsm).1
  started :=
    match e.input with
    | .start pending => pending.title :: d.started
    | _ =>
      match e.filled U d.fsm with
      | some args => if Clarify.missing args = [] then [] else d.started
      | none => d.started

/-- The handler answers, and a task it captures has a title that was started. -/
structure Harmless (d : Dialogue) (e : ClarifyEvent) : Prop where
  answers : ∃ answer, (e.outcome U d.fsm).2 = .ok answer
  titles : ∀ t ∈ (e.tables U d.fsm).tasks.keys, t ∉ e.store.tasks.keys →
    ∃ row, (e.tables U d.fsm).tasks.get? t = some row ∧ row.name ∈ d.started

/-- The title that waits was started. -/
def Titled (d : Dialogue) : Prop := ∀ title ∈ d.fsm.capture.title, title ∈ d.started

end Dialogue

section Steps

variable {U : CharTables} {e : ClarifyEvent} {fsm : Fsm} {d : Dialogue} {args : PartialCapture}

@[simp] theorem asked_capture (fsm : Fsm) (options : List String) (field : KeyField) :
    (Clarify.asked fsm options field).capture = fsm.capture := by
  cases field <;> rfl

theorem filled_title (h : e.filled U fsm = some args) : args.title = fsm.capture.title := by
  simp only [ClarifyEvent.filled] at h
  split at h
  · cases h
  · obtain ⟨opt, -, rfl⟩ := Option.map_eq_some_iff.mp h
    rfl
  · obtain ⟨opt, -, rfl⟩ := Option.map_eq_some_iff.mp h
    rfl
  · obtain rfl := Option.some.inj h
    rfl
  · cases h
  · cases h
  · split at h
    · obtain rfl := Option.some.inj h
      rfl
    · split at h
      · obtain rfl := Option.some.inj h
        rfl
      · cases h
    · cases h

theorem filled_not_start (h : e.filled U fsm = some args) (pending : PendingCapture) : e.input ≠ .start pending := by
  intro hinput
  simp only [ClarifyEvent.filled, hinput] at h
  cases h

theorem filled_readable (h : e.filled U fsm = some args) : e.Readable U fsm := by
  intro text htyped hstep
  simp only [ClarifyEvent.filled, htyped, hstep] at h
  rw [← Clarify.parseDate_ok_iff]
  split at h
  · rename_i date hdate
    exact ⟨_, hdate⟩
  · cases h

theorem step_started (hinput : ∀ pending, e.input ≠ .start pending) : (d.step U e).started =
    match e.filled U d.fsm with
    | some args => if Clarify.missing args = [] then [] else d.started
    | none => d.started := by
  rw [Dialogue.step]
  cases h : e.input with
  | start pending => exact absurd h (hinput pending)
  | press press => rfl
  | typed text => rfl

theorem step_titled (he : e.Possible) (h : d.Titled) : (d.step U e).Titled := by
  by_cases hstart : ∃ pending, e.input = .start pending
  · obtain ⟨pending, hinput⟩ := hstart
    obtain ⟨field, rest, hmissing⟩ := List.exists_cons_of_ne_nil (he.lacking pending hinput)
    have hrun := (@ClarifyEvent.starts U e d.fsm pending hinput field rest hmissing).1
    have hstarted : (d.step U e).started = pending.title :: d.started := by rw [Dialogue.step, hinput]
    intro title htitle
    rw [Dialogue.step, hrun, asked_capture] at htitle
    obtain rfl := Option.some.inj htitle
    rw [hstarted]
    exact List.mem_cons_self
  · have hinput : ∀ pending, e.input ≠ .start pending := fun pending hp => hstart ⟨pending, hp⟩
    intro title htitle
    rw [step_started hinput]
    cases hfilled : e.filled U d.fsm with
    | none =>
      have hidle := (ClarifyEvent.idles hfilled hinput).1.capture
      rw [Dialogue.step, hidle] at htitle
      exact h title htitle
    | some args =>
      cases hmissing : Clarify.missing args with
      | nil =>
        have hcleared := (ClarifyEvent.finishes hfilled hmissing he.keys he.known).1
        rw [Dialogue.step, hcleared] at htitle
        cases htitle
      | cons field rest =>
        have hasked := (ClarifyEvent.asks hfilled hmissing).1
        rw [Dialogue.step, hasked, asked_capture, filled_title hfilled] at htitle
        dsimp only
        rw [hmissing, if_neg (List.cons_ne_nil _ _)]
        exact h title htitle

theorem captureTask_new {s s' : Store} {sink : Option TaskSink} {intent : CaptureTaskIntent}
    {actor : Option PersonRecord} {result : CaptureResult} (hs : s.TaskKeys)
    (hknown : s.knows (actor.map PersonRecord.id)) (h : (captureTask U sink intent actor).run s = (.ok result, s'))
    {t : UUID} (ht : t ∈ s'.tasks.keys) (hnew : t ∉ s.tasks.keys) :
    ∃ row, s'.tasks.get? t = some row ∧ row.name = intent.taskTitle := by
  rw [captureTask_run hs hknown] at h
  split at h
  · obtain ⟨-, rfl⟩ := Prod.mk.inj h
    exact absurd ht hnew
  · obtain ⟨-, rfl⟩ := Prod.mk.inj h
    rcases OrdDict.mem_keys_insert.mp ht with rfl | ht
    · exact ⟨_, OrdDict.get?_insert_self _ _ _, rfl⟩
    · have hold : t ∈ (s.housed U intent.projectName (actor.map PersonRecord.id)).tasks.keys := ht
      rw [housed_tasks] at hold
      exact absurd hold hnew

/-- Where no table changes, an answer is all that is asked for. -/
theorem harmless_of_kept (hkept : e.tables U d.fsm = e.store) :
    d.Harmless U e ↔ ∃ answer, (e.outcome U d.fsm).2 = .ok answer := by
  refine ⟨Dialogue.Harmless.answers, fun hanswers => ⟨hanswers, ?_⟩⟩
  rw [hkept]
  exact fun t ht hnew => absurd ht hnew

/-- One event does no harm iff what it completes is a capture and what it reads a date. -/
theorem harmless_iff (he : e.Possible) (h : d.Titled) : d.Harmless U e ↔ e.Fits U d.fsm := by
  by_cases hstart : ∃ pending, e.input = .start pending
  · obtain ⟨pending, hinput⟩ := hstart
    obtain ⟨field, rest, hmissing⟩ := List.exists_cons_of_ne_nil (he.lacking pending hinput)
    obtain ⟨houtcome, htables⟩ := @ClarifyEvent.starts U e d.fsm pending hinput field rest hmissing
    refine iff_of_true ((harmless_of_kept htables).mpr ⟨_, by rw [houtcome]⟩) ⟨?_, ?_⟩
    · intro args hargs
      exact absurd hinput (filled_not_start hargs pending)
    · intro text htyped
      rw [hinput] at htyped
      cases htyped
  have hinput : ∀ pending, e.input ≠ .start pending := fun pending hp => hstart ⟨pending, hp⟩
  cases hfilled : e.filled U d.fsm with
  | none =>
    obtain ⟨hidle, hanswers⟩ := ClarifyEvent.idles hfilled hinput
    rw [harmless_of_kept hidle.tables, hanswers]
    constructor
    · intro hreadable
      refine ⟨fun args hargs => ?_, hreadable⟩
      rw [hfilled] at hargs
      cases hargs
    · exact fun hfits => hfits.readable
  | some args =>
    have hreadable := filled_readable hfilled
    cases hmissing : Clarify.missing args with
    | cons field rest =>
      obtain ⟨houtcome, htables⟩ := ClarifyEvent.asks hfilled hmissing
      have hharmless : d.Harmless U e := (harmless_of_kept htables).mpr ⟨_, by rw [houtcome]⟩
      refine iff_of_true hharmless ⟨fun args' hargs hnone => ?_, hreadable⟩
      obtain rfl := Option.some.inj (hfilled.symm.trans hargs)
      rw [hmissing] at hnone
      cases hnone
    | nil =>
      have hfits : e.Fits U d.fsm ↔ (e.chat.isAdmin = true → Clarify.Complete args) := by
        constructor
        · exact fun hfits => hfits.complete args hfilled hmissing
        · intro hcomplete
          refine ⟨fun args' hargs _ => ?_, hreadable⟩
          obtain rfl := Option.some.inj (hfilled.symm.trans hargs)
          exact hcomplete
      rw [hfits]
      obtain ⟨-, hstranger | hrefused | hcaptured⟩ := ClarifyEvent.finishes hfilled hmissing he.keys he.known
      · obtain ⟨hadmin, hanswers, htables⟩ := hstranger
        have hharmless : d.Harmless U e := (harmless_of_kept htables).mpr hanswers
        exact iff_of_true hharmless fun hyes => absurd (hadmin.symm.trans hyes) Bool.false_ne_true
      · obtain ⟨hadmin, ⟨err, hintent, hraised⟩, htables⟩ := hrefused
        refine iff_of_false (fun hharmless => ?_) fun hcomplete => ?_
        · obtain ⟨answer, hanswer⟩ := hharmless.answers
          rw [hraised] at hanswer
          cases hanswer
        · obtain ⟨intent, hok⟩ := (Clarify.intentOf_ok_iff args).mpr (hcomplete hadmin)
          rw [hintent] at hok
          cases hok
      · obtain ⟨hadmin, intent, result, hintent, hanswer, hrun⟩ := hcaptured
        refine iff_of_true ⟨⟨_, hanswer⟩, fun t ht hnew => ?_⟩ fun _ => (Clarify.intentOf_ok_iff args).mp ⟨intent, hintent⟩
        obtain ⟨row, hrow, hname⟩ := captureTask_new he.keys he.known hrun ht hnew
        refine ⟨row, hrow, h _ ?_⟩
        rw [hname, ← filled_title hfilled]
        exact (Clarify.intentOf_spec hintent).title

end Steps

theorem titled_after (U : CharTables) (events : List ClarifyEvent) (h : ∀ e ∈ events, e.Possible) :
    (Trace.after (Dialogue.step U) {} events).Titled := by
  induction events using List.reverseRecOn with
  | nil => exact fun _ htitle => nomatch htitle
  | append_singleton events e ih =>
    rw [Trace.after_snoc]
    exact step_titled (h e (by simp)) (ih fun e' he' => h e' (List.mem_append_left _ he'))

section Montage

def producer : Chat where
  isAdmin := true
  actor := some { id := 1, name := "Анна", isAdmin := true }
  solver := .onWeekdays
  today := 1
  taskSink := none
  projectSink := none

/-- Only the deadline is missing. -/
def montagePending : PendingCapture where
  title := "Монтаж"
  assignees := ["Анна"]
  project := "Ролик"
  deadline := none
  estHours := some none
  requiredSkills := []

def montageAsked : ClarifyEvent := ⟨producer, montageTeam, .start montagePending⟩

def montageToday : ClarifyEvent := ⟨producer, montageTeam, .press (.deadline 0)⟩

/-- The task is there. -/
def montageDue : Store := montageToday.tables .plain (montageAsked.outcome .plain {}).1

def latePress (press : Press) : ClarifyEvent := ⟨producer, montageDue, .press press⟩

theorem montageDue_taskKeys : montageDue.TaskKeys := by constructor <;> decide +kernel

theorem montageTeam_taskKeys : montageTeam.TaskKeys := by constructor <;> decide

end Montage

end Planner
