import Planner.Clarify
import Planner.TurnCaptures
import Planner.Lib.Trace

/-! One user's dialogues, event by event. Each event finds the tables as they are
by then; what it fills in, asks next or captures is said once for all handlers. -/

namespace Planner

open Program

inductive ClarifyInput
  | start (pending : PendingCapture)
  | press (press : Press)
  | typed (text : String)

/-- With the tables it finds, whoever has changed them. -/
structure ClarifyEvent where
  chat : Chat
  store : Store
  input : ClarifyInput

namespace Clarify

/-- What the keyboard for a field offers. -/
def offered (s : Store) : KeyField → List String
  | .project => s.projects.entries.reverse.map fun e => e.2.title
  | .assignee => s.peopleByName.map fun e => e.2.name
  | .deadline => []

def question (options : List String) : KeyField → ClarifyAnswer
  | .project => .question "В какой проект записать задачу?" (optionsKb options .project [⟨"➕ Новый проект", .newProject⟩])
  | .assignee => .question "Кто исполнитель?" (optionsKb options .assignee [])
  | .deadline => .question "Какой дедлайн?" deadlineKb

def asked (fsm : Fsm) (options : List String) : KeyField → Fsm
  | .project => { fsm with projOptions := options, step := none }
  | .assignee => { fsm with asgOptions := options, step := none }
  | .deadline => { fsm with step := none }

/-- The deadline, if the text is empty or a date. -/
def deadlineOf (args : PartialCapture) : Option (Option Date) :=
  match args.deadline.filter (· ≠ "") with
  | some d => (Date.fromisoformat d).map some
  | none => some none

/-- The arguments are those of a capture: all that building the intent checks. -/
structure Complete (args : PartialCapture) : Prop where
  title : args.title.isSome
  deadline : (deadlineOf args).isSome
  hours : args.estHours.isSome
  fields : ∀ title ∈ args.title, CaptureFields.Valid
    ⟨title, args.assignees, some args.project, none, none, none, args.requiredSkills⟩

/-- Day, month and year are machine integers, if there are any. -/
def NumbersFit (today : Date) : List (Option Int) → Prop
  | [some day, some month] => ∀ n ∈ [(today.toYmd.1 : Int), month, day], -2 ^ 31 ≤ n ∧ n < 2 ^ 31
  | [some day, some month, some year] => ∀ n ∈ [year, month, day], -2 ^ 31 ≤ n ∧ n < 2 ^ 31
  | _ => True

/-- A typed date can be read, or is no date. -/
structure DateFits (U : CharTables) (today : Date) (text : String) : Prop where
  numbers : Date.fromisoformat (strip text) = none →
    NumbersFit today (((strip text).toList.splitOn '.').map U.int)

section Runs

variable {U : CharTables} {chat : Chat} {args : PartialCapture} {fsm : Fsm} {s : Store}

theorem dateOf_ok_iff (year month day : Int) :
    (∃ d, dateOf year month day = .ok d) ↔ ∀ n ∈ [year, month, day], -2 ^ 31 ≤ n ∧ n < 2 ^ 31 := by
  rw [dateOf]
  split
  · rename_i h
    exact iff_of_true ⟨_, rfl⟩ fun n hn => of_decide_eq_true (List.all_eq_true.mp h n hn)
  · rename_i h
    refine iff_of_false (fun ⟨_, h'⟩ => nomatch h') fun hall => h (List.all_eq_true.mpr fun n hn => ?_)
    exact decide_eq_true (hall n hn)

theorem numbersFit_iff (today : Date) (parts : List (Option Int)) : (∃ d, (match parts with
    | [some day, some month] => dateOf today.toYmd.1 month day
    | [some day, some month, some year] => dateOf year month day
    | _ => .ok none : Except PlannerError (Option Date)) = .ok d) ↔ NumbersFit today parts := by
  unfold NumbersFit
  split
  · exact dateOf_ok_iff _ _ _
  · exact dateOf_ok_iff _ _ _
  · exact iff_of_true ⟨_, rfl⟩ trivial

-- from here on by its rule: evaluating it would read the text
attribute [irreducible] NumbersFit

theorem parseDate_ok_iff (today : Date) (text : String) :
    (∃ d, parseDate U today text = .ok d) ↔ DateFits U today text := by
  cases hiso : Date.fromisoformat (strip text) with
  | some d =>
    have hparse : parseDate U today text = .ok (some d) := by rw [parseDate, hiso]
    refine iff_of_true ⟨_, hparse⟩ ⟨fun hnone => ?_⟩
    rw [hiso] at hnone
    cases hnone
  | none =>
    have hfits : DateFits U today text ↔ NumbersFit today (((strip text).toList.splitOn '.').map U.int) :=
      ⟨fun h => h.numbers hiso, fun h => ⟨fun _ => h⟩⟩
    rw [hfits]
    generalize hparts : ((strip text).toList.splitOn '.').map U.int = parts
    simp only [parseDate, hiso, hparts]
    exact numbersFit_iff today parts

theorem sendFieldKeyboard_run {field : KeyField} {rest : List KeyField} (h : missing args = field :: rest) :
    (sendFieldKeyboard args fsm).run s =
      (.ok (asked fsm (offered s field) field, .ok (question (offered s field) field)), s) := by
  rw [sendFieldKeyboard, h]
  cases field with
  | project =>
    simp only [run_bind, run_attempt, Repo.listProjects, run_read, List.map_map]
    rfl
  | assignee =>
    simp only [run_bind, run_attempt, Repo.listPeople, run_read, List.map_map]
    rfl
  | deadline => rfl

theorem intentOf_eq (args : PartialCapture) : intentOf args = (do
    let title ← orRaise .key args.title
    let deadline ← orRaise .value (deadlineOf args)
    let hours ← orRaise .value args.estHours
    (CaptureFields.validate ⟨title, args.assignees, some args.project, deadline, none, hours,
      args.requiredSkills⟩).mapError fun _ => .value) := by
  rw [intentOf, deadlineOf]
  cases args.title with
  | none => rfl
  | some title =>
    cases args.deadline.filter (· ≠ "") with
    | none => rfl
    | some d =>
      dsimp only
      cases Date.fromisoformat d <;> rfl

theorem intentOf_ok_iff (args : PartialCapture) : (∃ intent, intentOf args = .ok intent) ↔ Complete args := by
  rw [intentOf_eq]
  constructor
  · rintro ⟨intent, h⟩
    obtain ⟨title, htitle, h⟩ := except_bind_ok h
    obtain ⟨deadline, hdeadline, h⟩ := except_bind_ok h
    obtain ⟨hours, hhours, h⟩ := except_bind_ok h
    have htitle' := orRaise_ok htitle
    refine ⟨by rw [htitle']; rfl, by rw [orRaise_ok hdeadline]; rfl, by rw [orRaise_ok hhours]; rfl, fun title' hmem => ?_⟩
    obtain rfl := Option.some.inj (htitle'.symm.trans hmem)
    refine (CaptureFields.validate_ok_iff ⟨title, args.assignees, some args.project, deadline, none, hours,
      args.requiredSkills⟩).mp ?_
    cases hbuilt : CaptureFields.validate ⟨title, args.assignees, some args.project, deadline, none, hours,
      args.requiredSkills⟩ with
    | ok built => exact ⟨built, rfl⟩
    | error err =>
      rw [hbuilt] at h
      cases h
  · rintro ⟨htitle, hdeadline, hhours, hfields⟩
    obtain ⟨title, htitle⟩ := Option.isSome_iff_exists.mp htitle
    obtain ⟨deadline, hdeadline⟩ := Option.isSome_iff_exists.mp hdeadline
    obtain ⟨hours, hhours⟩ := Option.isSome_iff_exists.mp hhours
    obtain ⟨intent, hbuilt⟩ := (CaptureFields.validate_ok_iff ⟨title, args.assignees, some args.project, deadline, none,
      hours, args.requiredSkills⟩).mpr (hfields title htitle)
    rw [htitle, hdeadline, hhours]
    exact ⟨intent, congrArg (Except.mapError fun _ => PlannerError.value) hbuilt⟩

/-- What a task captured in the end is like. -/
structure IntentOf (args : PartialCapture) (intent : CaptureTaskIntent) : Prop where
  title : args.title = some intent.taskTitle
  assignees : intent.assigneeNames = args.assignees
  project : intent.projectName = some args.project
  deadline : deadlineOf args = some intent.deadline
  time : intent.timeStart = none
  hours : args.estHours = some intent.estHours
  skills : intent.requiredSkills = args.requiredSkills

theorem intentOf_spec {intent : CaptureTaskIntent} (h : intentOf args = .ok intent) : IntentOf args intent := by
  rw [intentOf_eq] at h
  obtain ⟨title, htitle, h⟩ := except_bind_ok h
  obtain ⟨deadline, hdeadline, h⟩ := except_bind_ok h
  obtain ⟨hours, hhours, h⟩ := except_bind_ok h
  rw [CaptureFields.validate] at h
  split at h
  · obtain rfl := Except.ok.inj h
    exact ⟨orRaise_ok htitle, rfl, rfl, orRaise_ok hdeadline, rfl, orRaise_ok hhours, rfl⟩
  · cases h

end Runs

end Clarify

namespace ClarifyEvent

variable (U : CharTables) (e : ClarifyEvent) (fsm : Fsm)

/-- A message is an answer if one has been asked for. -/
def handle : UseCase (Fsm × Except PlannerError (Option ClarifyAnswer)) :=
  let answered := fun r : Fsm × Except PlannerError ClarifyAnswer => (r.1, r.2.map some)
  match e.input with
  | .start pending => answered <$> Clarify.startCaptureClarify pending fsm
  | .press press => answered <$> Clarify.handlePress U e.chat press fsm
  | .typed text =>
    match fsm.step with
    | some .projectName => answered <$> Clarify.handleTypedProject U e.chat text fsm
    | some .deadlineText => answered <$> Clarify.handleTypedDeadline U e.chat text fsm
    | _ => Pure.pure (fsm, .ok none)

/-- The state of the chat and the answer afterwards. -/
def outcome : Fsm × Except PlannerError (Option ClarifyAnswer) :=
  match ((e.handle U fsm).run e.store).1 with
  | .ok r => r
  | .error err => (fsm, .error err)

/-- The tables afterwards. -/
def tables : Store := ((e.handle U fsm).run e.store).2

/-- The arguments with the field that the event fills. -/
def filled : Option PartialCapture :=
  match e.input with
  | .start _ => none
  | .press (.project idx) => fsm.projOptions[idx]?.map fun opt => { fsm.capture with project := opt }
  | .press (.assignee idx) => fsm.asgOptions[idx]?.map fun opt => { fsm.capture with assignees := [opt] }
  | .press (.deadline days) => some { fsm.capture with deadline := some (Date.isoformat (e.chat.today + days)) }
  | .press .newProject => none
  | .press .deadlineText => none
  | .typed text =>
    match fsm.step with
    | some .projectName => some { fsm.capture with project := strip text }
    | some .deadlineText =>
      match Clarify.parseDate U e.chat.today text with
      | .ok (some d) => some { fsm.capture with deadline := some d.isoformat }
      | _ => none
    | _ => none

/-- The event completes the capture. -/
def Finishes : Prop := ∃ args ∈ e.filled U fsm, Clarify.missing args = []

section Runs

variable {U : CharTables} {e : ClarifyEvent} {fsm : Fsm}

/-- Whatever fills a field goes on in the same way. -/
theorem handle_filled {args : PartialCapture} (h : e.filled U fsm = some args) : e.handle U fsm =
    (fun r : Fsm × Except PlannerError ClarifyAnswer => (r.1, r.2.map some)) <$> Clarify.afterFill U e.chat args fsm := by
  obtain ⟨chat, store, input⟩ := e
  cases input with
  | start pending => cases h
  | press press =>
    cases press with
    | project idx =>
      obtain ⟨opt, hopt, rfl⟩ := Option.map_eq_some_iff.mp h
      simp only [handle, Clarify.handlePress, Clarify.handlePickProject, Clarify.pickFromOptions, hopt]
    | assignee idx =>
      obtain ⟨opt, hopt, rfl⟩ := Option.map_eq_some_iff.mp h
      simp only [handle, Clarify.handlePress, Clarify.handlePickAssignee, Clarify.pickFromOptions, hopt]
    | deadline days =>
      obtain rfl := Option.some.inj h
      rfl
    | newProject => cases h
    | deadlineText => cases h
  | typed text =>
    simp only [filled, handle] at h ⊢
    cases hstep : fsm.step with
    | none =>
      rw [hstep] at h
      cases h
    | some step =>
      rw [hstep] at h
      cases step with
      | editing => cases h
      | projectName =>
        obtain rfl := Option.some.inj h
        rfl
      | deadlineText =>
        simp only [Clarify.handleTypedDeadline] at h ⊢
        split at h
        · rename_i d hd
          obtain rfl := Option.some.inj h
          simp only [hd]
        · cases h

theorem outcome_of_run {r : Fsm × Except PlannerError (Option ClarifyAnswer)} {s' : Store}
    (hrun : (e.handle U fsm).run e.store = (.ok r, s')) : e.outcome U fsm = r ∧ e.tables U fsm = s' := by
  rw [outcome, tables, hrun]
  exact ⟨rfl, rfl⟩

theorem outcome_filled {args : PartialCapture} (h : e.filled U fsm = some args)
    {r : Fsm × Except PlannerError ClarifyAnswer} {s' : Store}
    (hrun : (Clarify.afterFill U e.chat args fsm).run e.store = (.ok r, s')) :
    e.outcome U fsm = (r.1, r.2.map some) ∧ e.tables U fsm = s' := by
  have hhandle : (e.handle U fsm).run e.store = (.ok (r.1, r.2.map some), s') := by
    rw [handle_filled h]
    exact run_bind_of_ok hrun
  exact outcome_of_run hhandle

theorem asks {args : PartialCapture} (h : e.filled U fsm = some args) {field : KeyField} {rest : List KeyField}
    (hmissing : Clarify.missing args = field :: rest) :
    e.outcome U fsm = (Clarify.asked { fsm with capture := args } (Clarify.offered e.store field) field,
        .ok (some (Clarify.question (Clarify.offered e.store field) field))) ∧ e.tables U fsm = e.store := by
  have hrun : (Clarify.afterFill U e.chat args fsm).run e.store = (.ok (Clarify.asked { fsm with capture := args }
      (Clarify.offered e.store field) field, .ok (Clarify.question (Clarify.offered e.store field) field)), e.store) := by
    rw [Clarify.afterFill, if_neg (by rw [hmissing]; exact List.cons_ne_nil _ _), Clarify.sendFieldKeyboard_run hmissing]
  exact outcome_filled h hrun

theorem starts {pending : PendingCapture} (h : e.input = .start pending) {field : KeyField} {rest : List KeyField}
    (hmissing : Clarify.missing pending.args = field :: rest) :
    e.outcome U fsm = (Clarify.asked { fsm with capture := pending.args } (Clarify.offered e.store field) field,
        .ok (some (Clarify.question (Clarify.offered e.store field) field))) ∧ e.tables U fsm = e.store := by
  have hrun : (e.handle U fsm).run e.store = (.ok (Clarify.asked { fsm with capture := pending.args }
      (Clarify.offered e.store field) field, .ok (some (Clarify.question (Clarify.offered e.store field) field))),
        e.store) := by
    rw [handle, h]
    exact run_bind_of_ok (Clarify.sendFieldKeyboard_run hmissing)
  exact outcome_of_run hrun

theorem finishes {args : PartialCapture} (h : e.filled U fsm = some args) (hmissing : Clarify.missing args = [])
    (hs : e.store.TaskKeys) (hknown : e.store.knows (e.chat.actor.map PersonRecord.id)) :
    (e.outcome U fsm).1 = {} ∧
      ((e.chat.isAdmin = false ∧ (∃ answer, (e.outcome U fsm).2 = .ok answer) ∧ e.tables U fsm = e.store) ∨
        (e.chat.isAdmin = true ∧ (∃ err, Clarify.intentOf args = .error err ∧ (e.outcome U fsm).2 = .error err) ∧
          e.tables U fsm = e.store) ∨
        e.chat.isAdmin = true ∧ ∃ intent result, Clarify.intentOf args = .ok intent ∧
          (e.outcome U fsm).2 = .ok (some (.captured result)) ∧
          (captureTask U e.chat.taskSink intent e.chat.actor).run e.store = (.ok result, e.tables U fsm)) := by
  have hfill : Clarify.afterFill U e.chat args fsm = Clarify.finalize U e.chat args := by
    rw [Clarify.afterFill, if_pos hmissing]
  cases hadmin : e.chat.isAdmin with
  | false =>
    have hrun : (Clarify.afterFill U e.chat args fsm).run e.store =
        (.ok ({}, .ok (.text "Только админ может ставить задачи.")), e.store) := by
      rw [hfill, Clarify.finalize, hadmin]
      rfl
    obtain ⟨houtcome, htables⟩ := outcome_filled h hrun
    rw [houtcome]
    exact ⟨rfl, Or.inl ⟨rfl, ⟨_, rfl⟩, htables⟩⟩
  | true =>
    cases hintent : Clarify.intentOf args with
    | error err =>
      have hrun : (Clarify.afterFill U e.chat args fsm).run e.store = (.ok ({}, .error err), e.store) := by
        rw [hfill, Clarify.finalize, hadmin, hintent]
        rfl
      obtain ⟨houtcome, htables⟩ := outcome_filled h hrun
      rw [houtcome]
      exact ⟨rfl, Or.inr (Or.inl ⟨rfl, ⟨err, rfl, rfl⟩, htables⟩)⟩
    | ok intent =>
      obtain ⟨result, s', hcapture⟩ : ∃ result s', (captureTask U e.chat.taskSink intent e.chat.actor).run e.store =
          (.ok result, s') := by
        rw [captureTask_run hs hknown]
        split
        · exact ⟨_, _, rfl⟩
        · exact ⟨_, _, rfl⟩
      have hrun : (Clarify.afterFill U e.chat args fsm).run e.store = (.ok ({}, .ok (.captured result)), s') := by
        rw [hfill, Clarify.finalize, hadmin, hintent]
        simp only [if_true, run_bind, run_attempt, run_ofExcept, hcapture]
        rfl
      obtain ⟨houtcome, htables⟩ := outcome_filled h hrun
      rw [houtcome, htables]
      exact ⟨rfl, Or.inr (Or.inr ⟨rfl, intent, result, rfl, rfl, hcapture⟩)⟩

/-- If a date is waited for, it can be read. -/
def Readable (U : CharTables) (e : ClarifyEvent) (fsm : Fsm) : Prop :=
  ∀ text, e.input = .typed text → fsm.step = some .deadlineText → Clarify.DateFits U e.chat.today text

/-- What an event that fills nothing leaves alone. -/
structure Idle (U : CharTables) (e : ClarifyEvent) (fsm : Fsm) : Prop where
  tables : e.tables U fsm = e.store
  capture : (e.outcome U fsm).1.capture = fsm.capture
  projects : (e.outcome U fsm).1.projOptions = fsm.projOptions
  assignees : (e.outcome U fsm).1.asgOptions = fsm.asgOptions
  pending : (e.outcome U fsm).1.pendingPvId = fsm.pendingPvId

theorem idle_of_run {fsm' : Fsm} {answer : Except PlannerError (Option ClarifyAnswer)}
    (hrun : (e.handle U fsm).run e.store = (.ok (fsm', answer), e.store)) (hcapture : fsm'.capture = fsm.capture)
    (hprojects : fsm'.projOptions = fsm.projOptions) (hassignees : fsm'.asgOptions = fsm.asgOptions)
    (hpending : fsm'.pendingPvId = fsm.pendingPvId) : e.Idle U fsm ∧ (e.outcome U fsm).2 = answer := by
  obtain ⟨houtcome, htables⟩ := outcome_of_run hrun
  rw [houtcome]
  exact ⟨⟨htables, by rw [houtcome]; exact hcapture, by rw [houtcome]; exact hprojects,
    by rw [houtcome]; exact hassignees, by rw [houtcome]; exact hpending⟩, rfl⟩

theorem press_idles {press : Press} (h : e.filled U fsm = none) (hpress : e.input = .press press) :
    e.Idle U fsm ∧ ∃ answer, (e.outcome U fsm).2 = .ok answer := by
  simp only [filled, hpress] at h
  have hhandle : e.handle U fsm = (fun r : Fsm × Except PlannerError ClarifyAnswer => (r.1, r.2.map some)) <$>
      Clarify.handlePress U e.chat press fsm := by
    simp only [handle, hpress]
  cases press with
  | project idx =>
    have hnone : fsm.projOptions[idx]? = none := Option.map_eq_none_iff.mp h
    have hrun : (e.handle U fsm).run e.store = (.ok (fsm, .ok (some (.alert "Вариант не найден."))), e.store) := by
      rw [hhandle]
      simp only [Clarify.handlePress, Clarify.handlePickProject, Clarify.pickFromOptions, hnone]
      rfl
    exact (idle_of_run hrun rfl rfl rfl rfl).imp_right fun h => ⟨_, h⟩
  | assignee idx =>
    have hnone : fsm.asgOptions[idx]? = none := Option.map_eq_none_iff.mp h
    have hrun : (e.handle U fsm).run e.store = (.ok (fsm, .ok (some (.alert "Вариант не найден."))), e.store) := by
      rw [hhandle]
      simp only [Clarify.handlePress, Clarify.handlePickAssignee, Clarify.pickFromOptions, hnone]
      rfl
    exact (idle_of_run hrun rfl rfl rfl rfl).imp_right fun h => ⟨_, h⟩
  | deadline days => cases h
  | newProject =>
    have hrun : (e.handle U fsm).run e.store = (.ok ({ fsm with step := some .projectName },
        .ok (some (.text "Напиши название нового проекта одним сообщением."))), e.store) := by
      rw [hhandle]
      rfl
    exact (idle_of_run hrun rfl rfl rfl rfl).imp_right fun h => ⟨_, h⟩
  | deadlineText =>
    have hrun : (e.handle U fsm).run e.store = (.ok ({ fsm with step := some .deadlineText },
        .ok (some (.text "Напиши дату: 2026-06-21 или 21.06.2026."))), e.store) := by
      rw [hhandle]
      rfl
    exact (idle_of_run hrun rfl rfl rfl rfl).imp_right fun h => ⟨_, h⟩

theorem typed_idles {text : String} (h : e.filled U fsm = none) (htyped : e.input = .typed text) :
    e.Idle U fsm ∧ ((∃ answer, (e.outcome U fsm).2 = .ok answer) ↔ e.Readable U fsm) := by
  by_cases hproject : fsm.step = some .projectName
  · simp only [filled, htyped, hproject] at h
    cases h
  by_cases hdeadline : fsm.step = some .deadlineText
  · have hreadable : e.Readable U fsm ↔ ∃ d, Clarify.parseDate U e.chat.today text = .ok d := by
      rw [Clarify.parseDate_ok_iff]
      constructor
      · exact fun h => h text htyped hdeadline
      · rintro h text' ht -
        rw [htyped] at ht
        cases ht
        exact h
    have hhandle : e.handle U fsm = (fun r : Fsm × Except PlannerError ClarifyAnswer => (r.1, r.2.map some)) <$>
        Clarify.handleTypedDeadline U e.chat text fsm := by
      simp only [handle, htyped, hdeadline]
    simp only [filled, htyped, hdeadline] at h
    rw [hreadable]
    rcases hdate : Clarify.parseDate U e.chat.today text with err | _ | d
    · have hrun : (e.handle U fsm).run e.store = (.ok (fsm, .error err), e.store) := by
        rw [hhandle, Clarify.handleTypedDeadline, hdate]
        rfl
      obtain ⟨hidle, hanswer⟩ := idle_of_run hrun rfl rfl rfl rfl
      rw [hanswer]
      exact ⟨hidle, iff_of_false (fun ⟨_, h⟩ => nomatch h) fun ⟨_, h⟩ => nomatch h⟩
    · have hrun : (e.handle U fsm).run e.store =
          (.ok (fsm, .ok (some (.text "Не понял дату. Формат: 2026-06-21 или 21.06.2026."))), e.store) := by
        rw [hhandle, Clarify.handleTypedDeadline, hdate]
        rfl
      obtain ⟨hidle, hanswer⟩ := idle_of_run hrun rfl rfl rfl rfl
      exact ⟨hidle, iff_of_true ⟨_, hanswer⟩ ⟨_, rfl⟩⟩
    · rw [hdate] at h
      cases h
  · have hrun : (e.handle U fsm).run e.store = (.ok (fsm, .ok none), e.store) := by
      rw [handle, htyped]
      rcases hstep : fsm.step with _ | _ | _ | _
      · rfl
      · rfl
      · exact absurd hstep hproject
      · exact absurd hstep hdeadline
    obtain ⟨hidle, hanswer⟩ := idle_of_run hrun rfl rfl rfl rfl
    exact ⟨hidle, iff_of_true ⟨_, hanswer⟩ fun _ _ h => absurd h hdeadline⟩

theorem idles (h : e.filled U fsm = none) (hstart : ∀ pending, e.input ≠ .start pending) :
    e.Idle U fsm ∧ ((∃ answer, (e.outcome U fsm).2 = .ok answer) ↔ e.Readable U fsm) := by
  cases hinput : e.input with
  | start pending => exact absurd hinput (hstart pending)
  | press press =>
    obtain ⟨hidle, hanswer⟩ := press_idles h hinput
    refine ⟨hidle, iff_of_true hanswer fun text ht => ?_⟩
    rw [hinput] at ht
    cases ht
  | typed text => exact typed_idles h hinput

end Runs

end ClarifyEvent

end Planner
