import Planner.ClarifyButtons

/-! A capture whose missing fields are asked for, against one that has them from
the start. The arguments of the second are those of the first with the answers. -/

namespace Planner

open Program

/-- What an answer gives, and to which field. -/
inductive KeyAnswer
  | project (text : String)
  | assignee (name : String)
  | deadline (iso : String)
  deriving DecidableEq, Repr

def KeyAnswer.put (capture : PartialCapture) : KeyAnswer → PartialCapture
  | .project text => { capture with project := text }
  | .assignee name => { capture with assignees := [name] }
  | .deadline iso => { capture with deadline := some iso }

/-- The same among the arguments of the tool. -/
def KeyAnswer.argue (args : Args) : KeyAnswer → Args
  | .project text => ("project", .ofText text) :: args
  | .assignee name => ("assignees", .ofNames [name]) :: args
  | .deadline iso => ("deadline", .ofText iso) :: args

/-- The rows of a capture and the link to its card. -/
structure Created where
  tasks : OrdDict UUID TaskRow
  projects : OrdDict UUID ProjectRow
  assignments : OrdDict (UUID × UUID) Int
  url : Option String

def Store.created (s : Store) (url : Option String) : Created := ⟨s.tasks, s.projects, s.assignments, url⟩

/-- What a direct call creates. -/
def Args.created (ctx : ToolContext) (args : Args) (s : Store) : Created :=
  let r := (ToolBox.execute ctx args {} "capture_task").run s
  r.2.created (match r.1 with
    | .ok outcome => outcome.captured.bind CaptureResult.notionUrl
    | .error _ => none)

/-- The tools for the user who answers. -/
def ToolContext.inChat (ctx : ToolContext) (U : CharTables) (chat : Chat) : ToolContext :=
  { ctx with tables := U, isAdmin := chat.isAdmin, actor := chat.actor, taskSink := chat.taskSink }

namespace ClarifyEvent

variable (U : CharTables) (e : ClarifyEvent) (fsm : Fsm)

def answer : Option KeyAnswer :=
  match e.input with
  | .start _ => none
  | .press (.project idx) => fsm.projOptions[idx]?.map .project
  | .press (.assignee idx) => fsm.asgOptions[idx]?.map .assignee
  | .press (.deadline days) => some (.deadline (Date.isoformat (e.chat.today + days)))
  | .press .newProject => none
  | .press .deadlineText => none
  | .typed text =>
    match fsm.step with
    | some .projectName => some (.project (strip text))
    | some .deadlineText =>
      match Clarify.parseDate U e.chat.today text with
      | .ok (some d) => some (.deadline d.isoformat)
      | _ => none
    | _ => none

def created : Created :=
  (e.tables U fsm).created (match (e.outcome U fsm).2 with
    | .ok (some (.captured result)) => result.notionUrl
    | _ => none)

/-- The event with another board. -/
def onBoard (sink : Option TaskSink) : ClarifyEvent := { e with chat := { e.chat with taskSink := sink } }

/-- The last answer creates what a direct call would, whatever the board. -/
def LosesNothing (ctx : ToolContext) (args : Args) : Prop :=
  ∀ sink, (e.onBoard sink).created U fsm = args.created (ctx.inChat U (e.onBoard sink).chat) e.store

end ClarifyEvent

/-- The chat, and the arguments with the answers so far. -/
structure Clarification where
  fsm : Fsm
  args : Args

namespace Clarification

variable (U : CharTables)

def step (c : Clarification) (e : ClarifyEvent) : Clarification where
  fsm := (e.outcome U c.fsm).1
  args := (e.answer U c.fsm).elim c.args (KeyAnswer.argue c.args)

/-- The events answer one capture, and the last of them completes it. -/
structure Answered (c : Clarification) (events : List ClarifyEvent) (e : ClarifyEvent) (capture : PartialCapture) : Prop where
  going : ∀ pre e', pre ++ [e'] <+: events →
    (∀ pending, e'.input ≠ .start pending) ∧ ¬ e'.Finishes U (Trace.after (step U) c pre).fsm
  filled : e.filled U (Trace.after (step U) c events).fsm = some capture
  complete : Clarify.missing capture = []

end Clarification

/-- The project has a task of that title that is not done. -/
def Store.Awaits (U : CharTables) (s : Store) (actorId : Option UUID) (project title : String) : Prop :=
  (findDuplicate U ((s.housed U (some project) actorId).projectTasks (s.homeOf U (some project)).1) title).isSome

/-- Nothing is created on either way, or the same: the title has no blanks around it,
no time of day is given, and both ways accept the arguments. -/
def ClarifyEvent.Alike (U : CharTables) (e : ClarifyEvent) (title : String) (args : Args) (capture : PartialCapture) : Prop :=
  e.chat.isAdmin = false ∨ e.store.Awaits U (e.chat.actor.map PersonRecord.id) capture.project title ∨
    (Clarify.Complete capture ↔ ∃ intent, CaptureArgs args intent) ∧
      (Clarify.Complete capture → strip title = title ∧ args.optTime "time_start" = .ok none)

section Answers

variable {U : CharTables} {e : ClarifyEvent} {fsm : Fsm} {args : Args} {capture : PartialCapture} {title : String}

theorem filled_eq : e.filled U fsm = (e.answer U fsm).map fun a => a.put fsm.capture := by
  obtain ⟨chat, store, input⟩ := e
  cases input with
  | start pending => rfl
  | press press =>
    cases press with
    | project idx =>
      simp only [ClarifyEvent.filled, ClarifyEvent.answer, Option.map_map]
      rfl
    | assignee idx =>
      simp only [ClarifyEvent.filled, ClarifyEvent.answer, Option.map_map]
      rfl
    | deadline days => rfl
    | newProject => rfl
    | deadlineText => rfl
  | typed text =>
    simp only [ClarifyEvent.filled, ClarifyEvent.answer]
    rcases fsm.step with _ | _ | _ | _
    · rfl
    · rfl
    · rfl
    · dsimp only
      rcases Clarify.parseDate U chat.today text with err | _ | d
      · rfl
      · rfl
      · rfl

/-- The arguments of a direct call and the capture that waits agree, but for blanks
around the title and the time of day. -/
structure Agrees (title : String) (args : Args) (capture : PartialCapture) : Prop where
  title_eq : args.requiredText "title" = .ok title
  stripped : capture.title = some (strip title)
  assignees : args.strings "assignees" = .ok capture.assignees
  project : args.stripped "project" "" = .ok (strip capture.project)
  deadline : args.optDate "deadline" = orRaise .value (Clarify.deadlineOf capture)
  hours : capture.estHours = (args.optInt "est_hours").toOption
  skills : args.strings "required_skills" = .ok capture.requiredSkills

theorem lookup_of_ne {name key : String} (a : Arg) (h : name ≠ key) : List.lookup name ((key, a) :: args) = args.lookup name := by
  rw [List.lookup_cons, beq_eq_false_iff_ne.mpr h]

theorem lookup_self (key : String) (a : Arg) : List.lookup key ((key, a) :: args) = some a := by
  rw [List.lookup_cons, beq_self_eq_true]

theorem stripped_ofText (key text : String) : Args.stripped ((key, .ofText text) :: args) key "" = .ok (strip text) := by
  rw [Args.stripped, Args.given?, lookup_self]
  by_cases h : text = ""
  · subst h
    rfl
  · rw [Option.filter_some, if_pos (by simpa [Arg.ofText] using h)]
    rfl

theorem optDate_ofText (key text : String) : Args.optDate ((key, .ofText text) :: args) key =
    orRaise .value (Clarify.deadlineOf { capture with deadline := some text }) := by
  rw [Args.optDate, Args.given?, lookup_self, Clarify.deadlineOf]
  dsimp only
  by_cases h : text = ""
  · subst h
    rfl
  · rw [Option.filter_some, if_pos (by simpa [Arg.ofText] using h), Option.filter_some, if_pos (by simpa using h)]
    change (orRaise .value (Date.fromisoformat text)).map some = orRaise .value ((Date.fromisoformat text).map some)
    cases Date.fromisoformat text <;> rfl

section Read

variable {args' : Args} {name : String} (h : args'.lookup name = args.lookup name)

include h

theorem requiredText_congr : args'.requiredText name = args.requiredText name := by
  rw [Args.requiredText, Args.required, h, Args.requiredText, Args.required]

theorem strings_congr : args'.strings name = args.strings name := by
  rw [Args.strings, Args.given?, h, Args.strings, Args.given?]

theorem stripped_congr (default : String) : args'.stripped name default = args.stripped name default := by
  rw [Args.stripped, Args.given?, h, Args.stripped, Args.given?]

theorem optDate_congr : args'.optDate name = args.optDate name := by
  rw [Args.optDate, Args.given?, h, Args.optDate, Args.given?]

theorem optInt_congr : args'.optInt name = args.optInt name := by
  rw [Args.optInt, h, Args.optInt]

end Read

theorem lookup_argue (a : KeyAnswer) {name : String} (h : name ∉ ["project", "assignees", "deadline"]) :
    (a.argue args).lookup name = args.lookup name := by
  simp only [List.mem_cons, List.not_mem_nil, or_false, not_or] at h
  cases a with
  | project text => exact lookup_of_ne _ h.1
  | assignee name => exact lookup_of_ne _ h.2.1
  | deadline iso => exact lookup_of_ne _ h.2.2

/-- An answer changes its own field only. -/
theorem Agrees.answer (h : Agrees title args capture) (a : KeyAnswer) : Agrees title (a.argue args) (a.put capture) := by
  have htitle := (requiredText_congr (lookup_argue a (by decide))).trans h.title_eq
  have hhours := congrArg Except.toOption (optInt_congr (@lookup_argue args a "est_hours" (by decide)))
  have hskills := (strings_congr (lookup_argue a (by decide))).trans h.skills
  cases a with
  | project text =>
    exact ⟨htitle, h.stripped, (strings_congr (lookup_of_ne _ (by decide))).trans h.assignees, stripped_ofText _ _,
      (optDate_congr (lookup_of_ne _ (by decide))).trans h.deadline, h.hours.trans hhours.symm, hskills⟩
  | assignee name =>
    exact ⟨htitle, h.stripped, rfl, (stripped_congr (lookup_of_ne _ (by decide)) _).trans h.project,
      (optDate_congr (lookup_of_ne _ (by decide))).trans h.deadline, h.hours.trans hhours.symm, hskills⟩
  | deadline iso =>
    exact ⟨htitle, h.stripped, (strings_congr (lookup_of_ne _ (by decide))).trans h.assignees,
      (stripped_congr (lookup_of_ne _ (by decide)) _).trans h.project, optDate_ofText _ _, h.hours.trans hhours.symm, hskills⟩

theorem stripped_of_required {default : String} (htitle : args.requiredText "title" = .ok title) (hblank : strip title ≠ "") :
    args.stripped "title" default = .ok (strip title) := by
  obtain ⟨a, ha, htext⟩ : ∃ a, args.lookup "title" = some a ∧ a.text = some title := by
    obtain ⟨a, ha, htext⟩ := except_bind_ok htitle
    exact ⟨a, orRaise_ok ha, orRaise_ok htext⟩
  have hfalsy : a.falsy = false := by
    rw [a.falsy_text title htext]
    refine decide_eq_false fun hempty => hblank ?_
    rw [hempty]
    decide
  rw [Args.stripped, Args.given?, ha, Option.filter_some, hfalsy]
  simp only [Bool.not_false, if_true, htext]
  rfl

theorem deadlineOf_isoformat {deadline : Option Date} (h : args.optDate "deadline" = .ok deadline)
    (hcapture : capture.deadline = deadline.map Date.isoformat) : Clarify.deadlineOf capture = some deadline := by
  rw [Clarify.deadlineOf, hcapture]
  rw [Args.optDate] at h
  cases hgiven : args.given? "deadline" with
  | none =>
    rw [hgiven] at h
    rw [← Except.ok.inj h]
    rfl
  | some a =>
    rw [hgiven] at h
    dsimp only at h
    cases hdate : Date.fromisoformat a.shown with
    | none =>
      rw [hdate] at h
      cases h
    | some d =>
      rw [hdate] at h
      obtain rfl := Except.ok.inj h
      have hiso := Date.fromisoformat_isoformat (Date.inRange_of_fromisoformat hdate)
      have hne : d.isoformat ≠ "" := by
        intro hempty
        rw [hempty] at hiso
        cases hiso
      rw [Option.map_some, Option.filter_some, if_pos (by simpa using hne)]
      dsimp only
      rw [hiso]
      rfl

theorem Agrees.start {assignees : List String} {project : String} {deadline : Option Date} {pending : PendingCapture}
    (htitle : args.requiredText "title" = .ok title) (hblank : strip title ≠ "")
    (hassignees : args.strings "assignees" = .ok assignees) (hproject : args.stripped "project" "" = .ok project)
    (hdeadline : args.optDate "deadline" = .ok deadline)
    (hpending : pendingCaptureOf args assignees project deadline = .ok pending) : Agrees title args pending.args := by
  obtain ⟨stripped, hstripped, hpending⟩ := except_bind_ok hpending
  obtain ⟨skills, hskills, hpending⟩ := except_bind_ok hpending
  rw [stripped_of_required htitle hblank] at hstripped
  obtain rfl := Except.ok.inj hstripped
  obtain rfl := Except.ok.inj hpending
  have hsame : strip project = project := by
    rw [Args.stripped] at hproject
    split at hproject
    · rename_i a ha
      cases htext : a.text with
      | none =>
        rw [htext] at hproject
        cases hproject
      | some text =>
        rw [htext] at hproject
        rw [← Except.ok.inj hproject, strip_strip]
    · rw [← Except.ok.inj hproject, strip_strip]
  refine ⟨htitle, rfl, hassignees, ?_, ?_, rfl, hskills⟩
  · rw [hproject]
    exact congrArg Except.ok hsame.symm
  · rw [hdeadline]
    rw [deadlineOf_isoformat hdeadline rfl]
    rfl

end Answers

section Call

variable {ctx : ToolContext} {args : Args} {s s' : Store} {outcome : ToolOutcome} {pending : PendingCapture}

/-- The tool leaves a capture for the buttons only if a key field is missing. -/
theorem captureTool_pending (h : (captureTool ctx args {}).run s = (.ok outcome, s'))
    (hpending : outcome.box.pendingCapture = some pending) : ∃ assignees project deadline,
      args.strings "assignees" = .ok assignees ∧ args.stripped "project" "" = .ok project ∧
        args.optDate "deadline" = .ok deadline ∧ pendingCaptureOf args assignees project deadline = .ok pending := by
  rw [captureTool] at h
  obtain ⟨assignees, hassignees, h⟩ := run_bind_ofExcept_ok h
  obtain ⟨project, hproject, h⟩ := run_bind_ofExcept_ok h
  obtain ⟨deadline, hdeadline, h⟩ := run_bind_ofExcept_ok h
  refine ⟨assignees, project, deadline, hassignees, hproject, hdeadline, ?_⟩
  split at h
  · obtain ⟨pending', hbuilt, h⟩ := run_bind_ofExcept_ok h
    obtain rfl := Except.ok.inj (congrArg Prod.fst h)
    obtain rfl := Option.some.inj hpending
    exact hbuilt
  · obtain ⟨title, -, h⟩ := run_bind_ofExcept_ok h
    obtain ⟨intent, -, h⟩ := run_bind_ofExcept_ok h
    obtain ⟨result, t, -, h⟩ := run_bind_eq_ok h
    obtain rfl := Except.ok.inj (congrArg Prod.fst h)
    rw [ToolBox.capture] at hpending
    split at hpending
    · cases hpending
    · cases hpending

theorem execute_stranger (hadmin : ctx.isAdmin = false) :
    (ToolBox.execute ctx args {} "capture_task").run s = (.ok ⟨{}, .ok adminOnlyMsg, none⟩, s) := by
  rw [ToolBox.execute, show Tool.ofName "capture_task" = some .captureTask from rfl, hadmin]
  rfl

theorem execute_pending (h : (ToolBox.execute ctx args {} "capture_task").run s = (.ok outcome, s'))
    (hpending : outcome.box.pendingCapture = some pending) : ∃ assignees project deadline,
      args.strings "assignees" = .ok assignees ∧ args.stripped "project" "" = .ok project ∧
        args.optDate "deadline" = .ok deadline ∧ pendingCaptureOf args assignees project deadline = .ok pending := by
  cases hadmin : ctx.isAdmin with
  | false =>
    rw [execute_stranger hadmin] at h
    obtain rfl := Except.ok.inj (congrArg Prod.fst h)
    cases hpending
  | true =>
    rw [execute_capture hadmin] at h
    cases hrun : (captureTool ctx args {}).run s with
    | mk r t =>
      rw [hrun] at h
      cases r with
      | ok outcome' =>
        obtain rfl := Except.ok.inj (congrArg Prod.fst h)
        exact captureTool_pending hrun hpending
      | error err =>
        obtain rfl := Except.ok.inj (congrArg Prod.fst h)
        cases hpending

end Call

section Direct

variable {ctx : ToolContext} {args : Args} {capture : PartialCapture} {title : String} {s : Store}

theorem created_of_run {outcome : ToolOutcome} {s' : Store}
    (h : (ToolBox.execute ctx args {} "capture_task").run s = (.ok outcome, s')) :
    args.created ctx s = s'.created (outcome.captured.bind CaptureResult.notionUrl) := by
  rw [Args.created, h]

theorem created_stranger (hadmin : ctx.isAdmin = false) : args.created ctx s = s.created none :=
  created_of_run (execute_stranger hadmin)

/-- The intent of a call with all key fields has what its arguments say. -/
theorem captureArgs_of_intent {c : KeyedCall} {intent : CaptureTaskIntent} (h : c.intent = some intent)
    (hproject : strip c.project = c.project) : CaptureArgs c.args intent := by
  rw [KeyedCall.intent] at h
  cases hbuilt : captureIntent c.args c.names c.project (some c.deadline) with
  | error err =>
    rw [hbuilt] at h
    cases h
  | ok built =>
    rw [hbuilt] at h
    obtain rfl := Option.some.inj h
    obtain ⟨skills, hskills, hbuilt⟩ := except_bind_ok hbuilt
    obtain ⟨title, htitle, hbuilt⟩ := except_bind_ok hbuilt
    obtain ⟨time, htime, hbuilt⟩ := except_bind_ok hbuilt
    obtain ⟨hours, hhours, hbuilt⟩ := except_bind_ok hbuilt
    rw [CaptureFields.validate] at hbuilt
    split at hbuilt
    · obtain rfl := Except.ok.inj hbuilt
      have hsame : strip ((some c.project).getD "") = c.project := hproject
      refine ⟨c.assignees_eq, ?_, c.deadline_eq, c.assigned, ?_, Option.some_ne_none _, htitle, htime, hhours, hskills⟩
      · rw [hsame]
        exact c.project_eq
      · rw [hsame]
        exact c.housed
    · cases hbuilt

theorem created_refused (h : Agrees title args capture) (hcomplete : Clarify.missing capture = [])
    (hrefused : ¬ ∃ intent, CaptureArgs args intent) : args.created ctx s = s.created none := by
  cases hadmin : ctx.isAdmin with
  | false => exact created_stranger hadmin
  | true =>
    obtain ⟨hproject, hassignees, hdue⟩ : strip capture.project ≠ "" ∧ capture.assignees ≠ [] ∧ capture.deadline.getD "" ≠ "" := by
      simp only [Clarify.missing, List.append_eq_nil_iff] at hcomplete
      exact ⟨fun he => by simp [he] at hcomplete, fun he => by simp [he] at hcomplete, fun he => by simp [he] at hcomplete⟩
    have hdeadline := h.deadline
    rw [Clarify.deadlineOf] at hdeadline
    cases hiso : capture.deadline with
    | none =>
      rw [hiso] at hdue
      exact absurd rfl hdue
    | some iso =>
      rw [hiso] at hdue hdeadline
      have hne : decide (iso ≠ "") = true := decide_eq_true hdue
      rw [Option.filter_some, if_pos hne] at hdeadline
      dsimp only at hdeadline
      cases hdate : Date.fromisoformat iso with
      | none =>
        rw [hdate] at hdeadline
        have hrun : (captureTool ctx args {}).run s = (.error .value, s) := by
          simp only [captureTool, h.assignees, h.project, hdeadline, run_bind, run_ofExcept]
          rfl
        have hexecute : (ToolBox.execute ctx args {} "capture_task").run s = (.ok ⟨{}, .error .value, none⟩, s) := by
          rw [execute_capture hadmin, hrun]
        exact created_of_run hexecute
      | some d =>
        rw [hdate] at hdeadline
        let c : KeyedCall := ⟨args, capture.assignees, strip capture.project, d, h.assignees, h.project, hdeadline,
          hassignees, hproject⟩
        have htitle : c.title = some title := by
          obtain ⟨a, ha, htext⟩ := except_bind_ok h.title_eq
          rw [KeyedCall.title, ha]
          exact congrArg some (a.shown_text _ (orRaise_ok htext))
        have hintent : c.intent = none := by
          cases hintent : c.intent with
          | none => rfl
          | some intent => exact absurd ⟨intent, captureArgs_of_intent hintent (strip_strip _)⟩ hrefused
        obtain ⟨said, hrun⟩ := @refused_run ctx c {} s hadmin title htitle rfl hintent
        exact created_of_run hrun

theorem created_captured (hadmin : ctx.isAdmin = true) {intent : CaptureTaskIntent} (hargs : CaptureArgs args intent)
    {result : CaptureResult} {s' : Store}
    (hrun : (captureTask ctx.tables ctx.taskSink intent ctx.actor).run s = (.ok result, s'))
    (hdup : result.isDuplicate = true → result.notionUrl = none) : args.created ctx s = s'.created result.notionUrl := by
  have htool : (captureTool ctx args {}).run s =
      (.ok (ToolBox.capture {} (titleKey ctx.tables intent.taskTitle) result), s') := by
    rw [captureTool_run hargs]
    exact run_bind_of_ok hrun
  have hexecute : (ToolBox.execute ctx args {} "capture_task").run s =
      (.ok (ToolBox.capture {} (titleKey ctx.tables intent.taskTitle) result), s') := by
    rw [execute_capture hadmin, htool]
  rw [created_of_run hexecute, ToolBox.capture]
  cases hd : result.isDuplicate with
  | true =>
    rw [hdup hd]
    rfl
  | false => rfl

end Direct

/-- The capture goes to the project, under the title, but for blanks around the two. -/
structure Captures (project title : String) (intent : CaptureTaskIntent) : Prop where
  home : captureTarget intent.projectName = captureTarget (some project)
  name : stripChars intent.taskTitle.toList = stripChars title.toList

section Outcomes

variable {U : CharTables} {s : Store} {actor : Option PersonRecord} {sink : Option TaskSink} {project title : String}
  {intent : CaptureTaskIntent}

variable (sink) in
theorem captureTask_split (hs : s.TaskKeys) (hknown : s.knows (actor.map PersonRecord.id))
    (h : Captures project title intent) :
    (s.Awaits U (actor.map PersonRecord.id) project title ∧ ∃ result,
        (captureTask U sink intent actor).run s = (.ok result, s) ∧ result.notionUrl = none) ∨
      ¬ s.Awaits U (actor.map PersonRecord.id) project title ∧ ∃ result s',
        (captureTask U sink intent actor).run s = (.ok result, s') ∧ result.isDuplicate = false ∧
          ∃ t home, t ∉ s.tasks.keys ∧ s'.tasks = s.tasks.insert t (intent.row home) := by
  have hhome : s.homeOf U intent.projectName = s.homeOf U (some project) := by rw [Store.homeOf, h.home, Store.homeOf]
  have hhoused : s.housed U intent.projectName (actor.map PersonRecord.id) =
      s.housed U (some project) (actor.map PersonRecord.id) := by rw [Store.housed, h.home, Store.housed]
  have hfind : ∀ tasks, findDuplicate U tasks intent.taskTitle = findDuplicate U tasks title := by
    intro tasks
    rw [findDuplicate, h.name, findDuplicate]
  have hrun := captureTask_run (U := U) hs hknown sink intent
  rw [hhome, hhoused, hfind] at hrun
  cases hdup : findDuplicate U ((s.housed U (some project) (actor.map PersonRecord.id)).projectTasks
      (s.homeOf U (some project)).1) title with
  | some task =>
    rw [hdup] at hrun
    exact Or.inl ⟨by rw [Store.Awaits, hdup]; rfl, _, hrun, rfl⟩
  | none =>
    rw [hdup] at hrun
    refine Or.inr ⟨by rw [Store.Awaits, hdup]; exact Bool.false_ne_true, _, _, hrun, rfl, ?_⟩
    have htasks := @housed_tasks U s (some project) (actor.map PersonRecord.id)
    refine ⟨_, (s.homeOf U (some project)).1, ?_, congrArg (fun tasks => OrdDict.insert tasks _ _) htasks⟩
    rw [← htasks]
    exact (hs.housed U (some project) (actor.map PersonRecord.id)).task_new

/-- What a capture creates, if there is one. -/
def Store.made (U : CharTables) (s : Store) (sink : Option TaskSink) (actor : Option PersonRecord) :
    Option CaptureTaskIntent → Created
  | none => s.created none
  | some intent =>
    let r := (captureTask U sink intent actor).run s
    r.2.created (match r.1 with
      | .ok result => result.notionUrl
      | .error _ => none)

theorem made_of_run {result : CaptureResult} {s' : Store}
    (h : (captureTask U sink intent actor).run s = (.ok result, s')) :
    s.made U sink actor (some intent) = s'.created result.notionUrl := by
  rw [Store.made, h]

theorem made_of_awaits (hs : s.TaskKeys) (hknown : s.knows (actor.map PersonRecord.id))
    (hawaits : s.Awaits U (actor.map PersonRecord.id) project title) {o : Option CaptureTaskIntent}
    (h : ∀ intent ∈ o, Captures project title intent) : s.made U sink actor o = s.created none := by
  cases o with
  | none => rfl
  | some intent =>
    rcases captureTask_split sink hs hknown (h intent rfl) with ⟨-, result, hrun, hurl⟩ | ⟨hnot, -⟩
    · rw [made_of_run hrun, hurl]
    · exact absurd hawaits hnot

variable (sink) in
theorem made_new (hs : s.TaskKeys) (hknown : s.knows (actor.map PersonRecord.id))
    (hnot : ¬ s.Awaits U (actor.map PersonRecord.id) project title) (h : Captures project title intent) :
    ∃ t home, t ∉ s.tasks.keys ∧ (s.made U sink actor (some intent)).tasks = s.tasks.insert t (intent.row home) := by
  rcases captureTask_split sink hs hknown h with ⟨hawaits, -⟩ | ⟨-, result, s', hrun, -, t, home, ht, htasks⟩
  · exact absurd hawaits hnot
  · refine ⟨t, home, ht, ?_⟩
    rw [made_of_run hrun]
    exact htasks

theorem made_ne_none (hs : s.TaskKeys) (hknown : s.knows (actor.map PersonRecord.id))
    (hnot : ¬ s.Awaits U (actor.map PersonRecord.id) project title) (h : Captures project title intent) :
    s.made U sink actor (some intent) ≠ s.created none := by
  intro heq
  obtain ⟨t, home, ht, htasks⟩ := made_new sink hs hknown hnot h
  rw [heq] at htasks
  refine ht ?_
  change s.tasks = _ at htasks
  rw [htasks]
  exact OrdDict.mem_keys_insert.mpr (Or.inl rfl)

theorem row_of_made_eq (hs : s.TaskKeys) (hknown : s.knows (actor.map PersonRecord.id))
    (hnot : ¬ s.Awaits U (actor.map PersonRecord.id) project title) {intent' : CaptureTaskIntent}
    (h : Captures project title intent) (h' : Captures project title intent')
    (heq : s.made U sink actor (some intent) = s.made U sink actor (some intent')) :
    intent.taskTitle = intent'.taskTitle ∧ intent.timeStart = intent'.timeStart := by
  obtain ⟨t, home, ht, htasks⟩ := made_new sink hs hknown hnot h
  obtain ⟨t', home', -, htasks'⟩ := made_new sink hs hknown hnot h'
  rw [heq, htasks'] at htasks
  have hget := congrArg (fun tasks => OrdDict.get? tasks t) htasks
  rw [OrdDict.get?_insert_self, OrdDict.get?_insert] at hget
  split at hget
  · have hrow := Option.some.inj hget
    exact ⟨congrArg TaskRow.name hrow.symm, congrArg TaskRow.timeStart hrow.symm⟩
  · exact absurd (OrdDict.mem_keys.mpr (by rw [hget]; rfl)) ht

end Outcomes

section Compare

variable {U : CharTables} {e : ClarifyEvent} {fsm : Fsm} {ctx : ToolContext} {args : Args} {capture : PartialCapture}
  {title : String}

theorem filled_onBoard (sink : Option TaskSink) : (e.onBoard sink).filled U fsm = e.filled U fsm := by
  rw [ClarifyEvent.filled, ClarifyEvent.filled, ClarifyEvent.onBoard]

theorem dialogue_made (hfilled : e.filled U fsm = some capture) (hmissing : Clarify.missing capture = [])
    (hs : e.store.TaskKeys) (hknown : e.store.knows (e.chat.actor.map PersonRecord.id)) : e.created U fsm =
      if e.chat.isAdmin then e.store.made U e.chat.taskSink e.chat.actor (Clarify.intentOf capture).toOption
      else e.store.created none := by
  obtain ⟨-, hstranger | hrefused | hcaptured⟩ := ClarifyEvent.finishes hfilled hmissing hs hknown
  · obtain ⟨hadmin, -, htables⟩ := hstranger
    have htext : (e.outcome U fsm).2 = .ok (some (.text "Только админ может ставить задачи.")) := by
      have hrun : (Clarify.afterFill U e.chat capture fsm).run e.store =
          (.ok ({}, .ok (.text "Только админ может ставить задачи.")), e.store) := by
        rw [Clarify.afterFill, if_pos hmissing, Clarify.finalize, hadmin]
        rfl
      rw [(ClarifyEvent.outcome_filled hfilled hrun).1]
      rfl
    rw [ClarifyEvent.created, htables, htext, hadmin]
    rfl
  · obtain ⟨hadmin, ⟨err, hintent, houtcome⟩, htables⟩ := hrefused
    rw [ClarifyEvent.created, htables, houtcome, hadmin, hintent]
    rfl
  · obtain ⟨hadmin, intent, result, hintent, houtcome, hrun⟩ := hcaptured
    rw [ClarifyEvent.created, houtcome, hadmin, hintent]
    exact (made_of_run hrun).symm

theorem direct_made {s : Store} (h : Agrees title args capture) (hmissing : Clarify.missing capture = []) (hs : s.TaskKeys)
    (hknown : s.knows (ctx.actor.map PersonRecord.id)) (hadmin : ctx.isAdmin = true) {o : Option CaptureTaskIntent}
    (ho : ∀ intent ∈ o, CaptureArgs args intent) (hnone : o = none → ¬ ∃ intent, CaptureArgs args intent) :
    args.created ctx s = s.made ctx.tables ctx.taskSink ctx.actor o := by
  cases o with
  | none => exact created_refused h hmissing (hnone rfl)
  | some intent =>
    have hargs := ho intent rfl
    rcases captureTask_split (U := ctx.tables) ctx.taskSink hs hknown
      (⟨rfl, rfl⟩ : Captures (intent.projectName.getD "") intent.taskTitle intent) with
      ⟨-, result, hrun, hurl⟩ | ⟨-, result, s', hrun, hnew, -⟩
    · rw [made_of_run hrun]
      exact created_captured hadmin hargs hrun fun _ => hurl
    · rw [made_of_run hrun]
      refine created_captured hadmin hargs hrun fun hdup => ?_
      rw [hnew] at hdup
      cases hdup

theorem Clarify.IntentOf.captures {intent : CaptureTaskIntent} (hintent : Clarify.IntentOf capture intent)
    (h : Agrees title args capture) : Captures capture.project title intent := by
  have htitle : strip title = intent.taskTitle := Option.some.inj (h.stripped.symm.trans hintent.title)
  refine ⟨by rw [hintent.project], ?_⟩
  rw [← htitle, strip, String.toList_ofList, stripChars_stripChars]

theorem CaptureArgs.captures {intent : CaptureTaskIntent} (hargs : CaptureArgs args intent)
    (h : Agrees title args capture) : Captures capture.project title intent := by
  have hproject : strip (intent.projectName.getD "") = strip capture.project :=
    Except.ok.inj (hargs.project.symm.trans h.project)
  have htitle : title = intent.taskTitle := Except.ok.inj (h.title_eq.symm.trans hargs.title)
  refine ⟨?_, by rw [htitle]⟩
  rw [captureTarget, hproject, captureTarget, Option.getD_some]

/-- The two captures are one if title and time of day agree. -/
theorem captureTask_same {intent intent' : CaptureTaskIntent} (h : Agrees title args capture)
    (hintent : Clarify.IntentOf capture intent) (hargs : CaptureArgs args intent') (htitle : strip title = title)
    (htime : args.optTime "time_start" = .ok none) (sink : Option TaskSink) (actor : Option PersonRecord) :
    captureTask U sink intent actor = captureTask U sink intent' actor := by
  have hproject : strip (intent'.projectName.getD "") = strip capture.project :=
    Except.ok.inj (hargs.project.symm.trans h.project)
  have hname : intent.taskTitle = intent'.taskTitle := by
    have hleft : strip title = intent.taskTitle := Option.some.inj (h.stripped.symm.trans hintent.title)
    rw [← hleft, htitle]
    exact Except.ok.inj (h.title_eq.symm.trans hargs.title)
  have hnames : intent.assigneeNames = intent'.assigneeNames :=
    hintent.assignees.trans (Except.ok.inj (h.assignees.symm.trans hargs.assignees))
  have hdue : intent.deadline = intent'.deadline := by
    have hdeadline := h.deadline
    rw [hintent.deadline, hargs.deadline] at hdeadline
    exact (Except.ok.inj hdeadline).symm
  have htimes : intent.timeStart = intent'.timeStart :=
    hintent.time.trans (Except.ok.inj (htime.symm.trans hargs.time))
  have hhours : intent.estHours = intent'.estHours := by
    have hhours := h.hours
    rw [hintent.hours, hargs.hours] at hhours
    exact Option.some.inj hhours
  have hskills : intent.requiredSkills = intent'.requiredSkills :=
    hintent.skills.trans (Except.ok.inj (h.skills.symm.trans hargs.skills))
  have hresolve : resolveProject U intent.projectName actor = resolveProject U intent'.projectName actor := by
    rw [hintent.project, resolveProject, resolveProject, hproject, Option.getD_some]
  simp only [captureTask, hresolve, hname, hnames, hdue, htimes, hhours, hskills]

theorem made_same_iff {s : Store} {actor : Option PersonRecord} (hs : s.TaskKeys)
    (hknown : s.knows (actor.map PersonRecord.id)) (h : Agrees title args capture)
    (hnot : ¬ s.Awaits U (actor.map PersonRecord.id) capture.project title) {built intent : CaptureTaskIntent}
    (hspec : Clarify.IntentOf capture built) (hargs : CaptureArgs args intent) :
    (∀ sink, s.made U sink actor (some built) = s.made U sink actor (some intent)) ↔
      strip title = title ∧ args.optTime "time_start" = .ok none := by
  constructor
  · intro hsame
    obtain ⟨htitle, htime⟩ := row_of_made_eq hs hknown hnot (hspec.captures h) (hargs.captures h) (hsame none)
    have hleft : strip title = built.taskTitle := Option.some.inj (h.stripped.symm.trans hspec.title)
    have hright : title = intent.taskTitle := Except.ok.inj (h.title_eq.symm.trans hargs.title)
    refine ⟨?_, ?_⟩
    · rw [hleft, htitle, ← hright]
    · rw [hargs.time, ← htime, hspec.time]
  · rintro ⟨htitle, htime⟩ sink
    rw [Store.made, Store.made, captureTask_same h hspec hargs htitle htime sink actor]

/-- The dialogue's capture and the direct one do the same: what waits is taken either
way, and else they agree on whether there is a capture and on what it has. -/
theorem made_alike_iff {s : Store} {actor : Option PersonRecord} (hs : s.TaskKeys)
    (hknown : s.knows (actor.map PersonRecord.id)) (h : Agrees title args capture) {o : Option CaptureTaskIntent}
    (ho : ∀ intent ∈ o, CaptureArgs args intent) (hnone : o = none → ¬ ∃ intent, CaptureArgs args intent) :
    (∀ sink, s.made U sink actor (Clarify.intentOf capture).toOption = s.made U sink actor o) ↔
      s.Awaits U (actor.map PersonRecord.id) capture.project title ∨
        (Clarify.Complete capture ↔ ∃ intent, CaptureArgs args intent) ∧
          (Clarify.Complete capture → strip title = title ∧ args.optTime "time_start" = .ok none) := by
  have hcaptures : ∀ intent ∈ o, Captures capture.project title intent := fun intent hi => (ho intent hi).captures h
  have hcaptures' : ∀ intent ∈ (Clarify.intentOf capture).toOption, Captures capture.project title intent := by
    intro intent hi
    cases hintent : Clarify.intentOf capture with
    | error err =>
      rw [hintent] at hi
      cases hi
    | ok built =>
      rw [hintent] at hi
      obtain rfl := Option.some.inj hi
      exact (Clarify.intentOf_spec hintent).captures h
  by_cases hawaits : s.Awaits U (actor.map PersonRecord.id) capture.project title
  · refine iff_of_true (fun sink => ?_) (Or.inl hawaits)
    rw [made_of_awaits hs hknown hawaits hcaptures, made_of_awaits hs hknown hawaits hcaptures']
  rw [or_iff_right hawaits, ← Clarify.intentOf_ok_iff]
  cases hintent : Clarify.intentOf capture with
  | error err =>
    have hnot : ¬ ∃ intent, (Except.error err : Except PlannerError CaptureTaskIntent) = .ok intent := fun ⟨_, h⟩ => nomatch h
    cases o with
    | none => exact iff_of_true (fun _ => rfl) ⟨iff_of_false hnot (hnone rfl), fun hok => absurd hok hnot⟩
    | some intent =>
      refine iff_of_false (fun hsame => ?_) fun hboth => hnot (hboth.1.mpr ⟨intent, ho intent rfl⟩)
      exact made_ne_none hs hknown hawaits (hcaptures intent rfl) (hsame none).symm
  | ok built =>
    have hspec := Clarify.intentOf_spec hintent
    cases o with
    | none =>
      refine iff_of_false (fun hsame => ?_) fun hboth => hnone rfl (hboth.1.mp ⟨built, rfl⟩)
      exact made_ne_none hs hknown hawaits (hspec.captures h) (hsame none)
    | some intent =>
      have hargs := ho intent rfl
      have hok : (∃ i, (Except.ok built : Except PlannerError CaptureTaskIntent) = .ok i) ↔
          ∃ intent, CaptureArgs args intent := iff_of_true ⟨built, rfl⟩ ⟨intent, hargs⟩
      rw [and_iff_right hok]
      exact (made_same_iff hs hknown h hawaits hspec hargs).trans ⟨fun hplain _ => hplain, fun hplain => hplain ⟨built, rfl⟩⟩

theorem losesNothing_iff (hfilled : e.filled U fsm = some capture) (hmissing : Clarify.missing capture = [])
    (hs : e.store.TaskKeys) (hknown : e.store.knows (e.chat.actor.map PersonRecord.id)) (h : Agrees title args capture) :
    e.LosesNothing U fsm ctx args ↔ e.Alike U title args capture := by
  have hdialogue : ∀ sink, (e.onBoard sink).created U fsm = if e.chat.isAdmin then
      e.store.made U sink e.chat.actor (Clarify.intentOf capture).toOption else e.store.created none := by
    intro sink
    have hfilled' : (e.onBoard sink).filled U fsm = some capture := by rw [filled_onBoard, hfilled]
    exact dialogue_made hfilled' hmissing hs hknown
  cases hadmin : e.chat.isAdmin with
  | false =>
    refine iff_of_true (fun sink => ?_) (Or.inl hadmin)
    rw [hdialogue, hadmin]
    exact (@created_stranger (ctx.inChat U (e.onBoard sink).chat) args e.store hadmin).symm
  | true =>
    obtain ⟨o, ho, hnone⟩ : ∃ o : Option CaptureTaskIntent, (∀ intent ∈ o, CaptureArgs args intent) ∧
        (o = none → ¬ ∃ intent, CaptureArgs args intent) := by
      by_cases haccepted : ∃ intent, CaptureArgs args intent
      · obtain ⟨intent, hargs⟩ := haccepted
        exact ⟨some intent, fun _ hi => Option.some.inj hi ▸ hargs, nofun⟩
      · exact ⟨none, nofun, fun _ => haccepted⟩
    have hdirect : ∀ sink, args.created (ctx.inChat U (e.onBoard sink).chat) e.store = e.store.made U sink e.chat.actor o :=
      fun sink => @direct_made (ctx.inChat U (e.onBoard sink).chat) args capture title e.store h hmissing hs hknown hadmin o ho hnone
    have hloses : e.LosesNothing U fsm ctx args ↔ ∀ sink,
        e.store.made U sink e.chat.actor (Clarify.intentOf capture).toOption = e.store.made U sink e.chat.actor o := by
      refine forall_congr' fun sink => ?_
      rw [hdialogue, hdirect, hadmin, if_pos rfl]
    have halike : e.Alike U title args capture ↔ e.store.Awaits U (e.chat.actor.map PersonRecord.id) capture.project title ∨
        (Clarify.Complete capture ↔ ∃ intent, CaptureArgs args intent) ∧
          (Clarify.Complete capture → strip title = title ∧ args.optTime "time_start" = .ok none) := by
      rw [ClarifyEvent.Alike, hadmin]
      exact or_iff_right fun hfalse => nomatch hfalse
    rw [hloses, halike]
    exact made_alike_iff hs hknown h ho hnone

end Compare

section Runs

variable {U : CharTables} {c : Clarification} {e : ClarifyEvent} {fsm : Fsm} {title : String}

theorem start_capture {pending : PendingCapture} (h : e.input = .start pending) :
    (e.outcome U fsm).1.capture = pending.args := by
  cases hmissing : Clarify.missing pending.args with
  | nil => rw [starts_complete h hmissing]
  | cons field rest => rw [(ClarifyEvent.starts h hmissing).1, asked_capture]

theorem step_agrees (hinput : ∀ pending, e.input ≠ .start pending) (hgoing : ¬ e.Finishes U c.fsm)
    (h : Agrees title c.args c.fsm.capture) : Agrees title (c.step U e).args (c.step U e).fsm.capture := by
  cases hanswer : e.answer U c.fsm with
  | none =>
    have hfilled : e.filled U c.fsm = none := by rw [filled_eq, hanswer, Option.map_none]
    have hidle := (ClarifyEvent.idles hfilled hinput).1.capture
    rw [Clarification.step, hanswer, hidle]
    exact h
  | some a =>
    have hfilled : e.filled U c.fsm = some (a.put c.fsm.capture) := by rw [filled_eq, hanswer, Option.map_some]
    obtain ⟨field, rest, hmissing⟩ : ∃ field rest, Clarify.missing (a.put c.fsm.capture) = field :: rest :=
      List.exists_cons_of_ne_nil fun hnone => hgoing ⟨_, hfilled, hnone⟩
    rw [Clarification.step, hanswer, (ClarifyEvent.asks hfilled hmissing).1, asked_capture]
    exact h.answer a

theorem after_agrees (h : Agrees title c.args c.fsm.capture) (events : List ClarifyEvent)
    (hgoing : ∀ pre e', pre ++ [e'] <+: events →
      (∀ pending, e'.input ≠ .start pending) ∧ ¬ e'.Finishes U (Trace.after (Clarification.step U) c pre).fsm) :
    Agrees title (Trace.after (Clarification.step U) c events).args
      (Trace.after (Clarification.step U) c events).fsm.capture := by
  induction events using List.reverseRecOn with
  | nil => exact h
  | append_singleton events e ih =>
    obtain ⟨hinput, hlast⟩ := hgoing events e (List.prefix_refl _)
    rw [Trace.after_snoc]
    exact step_agrees hinput hlast (ih fun pre e' hpre => hgoing pre e' (hpre.trans (List.prefix_append _ _)))

end Runs

section Montage

def Arg.ofTime (t : TimeOfDay) : Arg := { Arg.ofText t.text with time := some t }

/-- Everything but the deadline. -/
def montageArgs : Args :=
  [("title", .ofText "Монтаж"), ("assignees", .ofNames ["Анна"]), ("project", .ofText "Ролик")]

/-- And at a quarter past ten. -/
def montageAtTen : Args := ("time_start", .ofTime ⟨10, 15, by decide, by decide⟩) :: montageArgs

def montageAnswered : PartialCapture := { montagePending.args with deadline := some "0001-01-01" }

/-- With or without the time of day: the answer is the last one. -/
theorem montage_answered (args : Args) :
    Clarification.Answered .plain ⟨(montageAsked.outcome .plain {}).1, args⟩ [] montageToday montageAnswered where
  going := fun pre e' hpre => by simp at hpre
  filled := by
    change montageToday.filled .plain (montageAsked.outcome .plain {}).1 = some montageAnswered
    decide +kernel
  complete := by decide +kernel

end Montage

end Planner
