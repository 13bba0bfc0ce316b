import Planner.InterruptedTurns
import Planner.OperationRuns
import Planner.Strangers
import Planner.ToolCaptures

/-! One intent, carried out by the dispatcher of the parser and by the tool of
the agent. They part where the dispatcher wants a person record or has no branch. -/

namespace Planner

open Program

/-- A call of the tool of the same kind with the same arguments; none of the
tools takes the return date of a brief. -/
inductive SameCall : Intent → ToolUse → Prop
  | addProject {intent : AddProjectIntent} {args : Args}
    (h : planIntent args = .ok { intent with briefReturnDate := none }) :
    SameCall (.addProject intent) ⟨"plan_project", args⟩
  | vacation {intent : VacationIntent} {args : Args} (h : vacationIntent args = .ok intent) :
    SameCall (.vacation intent) ⟨"set_vacation", args⟩
  | assign {taskRef personName : String} {args : Args} (htask : args.requiredText "task_ref" = .ok taskRef)
    (hperson : args.requiredText "person" = .ok personName) :
    SameCall (.assign taskRef personName) ⟨"assign_task", args⟩
  | captureTask {intent : CaptureTaskIntent} {args : Args} (h : CaptureArgs args intent) :
    SameCall (.captureTask intent) ⟨"capture_task", args⟩

/-- The checks of a proposal before it writes: the intent, the dependencies, the plan. -/
def Store.Checks (s : Store) (solver : GreedySolver) (intent : AddProjectIntent) (people : List Person)
    (template : ProjectTemplate) (today : Date) (existing : List DayAllocation) (overrides : List DayOverride) : Prop :=
  ∃ title tasks deps plan earliestEnd, validProject intent template today = .ok title ∧
    instantiate template s.nextId (List.range' (s.nextId + 1) template.tasks.length) = .ok (tasks, deps) ∧
    solveProject solver (projectRequest people tasks deps today overrides existing intent.deadline) = .ok plan ∧
    earliestEndOf solver (projectRequest people tasks deps today overrides existing intent.deadline) today = .ok earliestEnd

/-- There is the template and a team, and the checks succeed. -/
def Store.Plans (s : Store) (solver : GreedySolver) (today : Date) (intent : AddProjectIntent) : Prop :=
  ∃ template, s.projectTemplate intent.templateCode = some template ∧ s.solverPeople ≠ [] ∧
    s.Checks solver intent s.solverPeople template today s.committedLoad []

/-- When the dispatcher carries out what it acknowledges. -/
def Bot.CarriesOut (bot : Bot) (u : Update) (actor : Actor) (s : Store) : Intent → Prop
  | .addProject intent => s.Plans bot.solver u.today intent → actor.record.isSome ∧ intent.briefReturnDate = none
  | .assign taskRef personName => s.Assigns bot.tables taskRef personName → actor.record.isSome
  | .vacation intent => ¬ s.Vacates intent
  | _ => True

theorem Store.SameRows.refl (s : Store) : s.SameRows s := rfl

theorem Store.SameRows.symm {s t : Store} (h : s.SameRows t) : t.SameRows s := by
  rw [Store.SameRows] at h ⊢
  rw [h]

theorem Store.SameRows.trans {s t u : Store} (h : s.SameRows t) (h' : t.SameRows u) : s.SameRows u := by
  rw [Store.SameRows] at h h' ⊢
  rw [h', h]

section Propose

variable {solver : GreedySolver} {intent : AddProjectIntent} {actor : Option PersonRecord} {today : Date} {s : Store}

/-- The row of the project with the return date it was made with. -/
def Store.Briefed (pid : UUID) (brief : Option Date) (s : Store) : Prop :=
  ∃ row, s.projects.get? pid = some row ∧ row.briefReturnDate = brief

/-- The return date of a brief is not checked. -/
theorem Store.plans_brief (brief : Option Date) :
    s.Plans solver today { intent with briefReturnDate := brief } ↔ s.Plans solver today intent := by
  simp only [Store.Plans, Store.Checks, validProject]

theorem Store.SameRows.briefed {t : Store} {pid : UUID} {brief brief' : Option Date} (h : s.SameRows t)
    (hs : s.Briefed pid brief) (ht : t.Briefed pid brief') : brief = brief' := by
  obtain ⟨row, hrow, rfl⟩ := hs
  obtain ⟨row', hrow', rfl⟩ := ht
  rw [h] at hrow'
  cases hrow.symm.trans hrow'
  rfl

theorem recordProject_briefed {pid : UUID} (hknown : s.knows (actor.map PersonRecord.id)) (hnew : pid ∉ s.projects.keys)
    (title : String) (tasks : List Task) (plan : PlanResult) :
    ((recordProject title intent (actor.map PersonRecord.id) pid tasks plan).run s).2.Briefed pid
      intent.briefReturnDate := by
  let I := Store.Briefed pid intent.briefReturnDate
  have hsave : ∀ p, (Repo.saveProjectTasks p tasks plan.assignments).Keeps I := fun _ => Keeps.guarded fun _ _ h => h
  have hversion : ∀ p, (Repo.savePlanVersion p .proposed (serializePlan plan) (actor.map PersonRecord.id)).Keeps I :=
    fun _ => Keeps.guarded fun _ _ h => h
  have haudit : ∀ p, (Repo.addAudit (actor.map PersonRecord.id) "add_project" "project" p
      (some [("title", .text title)])).Keeps I := fun _ => Keeps.guarded fun _ _ h => h
  have hc : s.knows (actor.map PersonRecord.id) ∧ pid ∉ s.projects.keys := ⟨hknown, hnew⟩
  simp only [recordProject, run_bind _ _ s, Repo.createProject, run_call, if_pos hc]
  refine Keeps.run ((hsave _).bind fun _ => (hversion _).bind fun _ => (haudit _).bind fun _ => Keeps.pure _) ?_
  exact ⟨_, OrdDict.get?_insert_self _ _ _, rfl⟩

theorem mirrorProject_briefed (sink : Option ProjectSink) (card : SinkProject) (pid q : UUID) (brief : Option Date)
    (h : s.Briefed pid brief) : ((mirrorProject sink card q).run s).2.Briefed pid brief := by
  obtain ⟨page, s', hrun, rfl | ⟨id, rfl⟩⟩ := mirrorProject_run sink card q s
  · rwa [hrun]
  · rw [hrun]
    obtain ⟨row, hrow, hbrief⟩ := h
    simp only [Store.Briefed, Store.modifyProject, OrdDict.get?_modify]
    split
    · rw [hrow]
      exact ⟨_, rfl, hbrief⟩
    · exact ⟨row, hrow, hbrief⟩

/-- Either a check fails and no row is written, or the project is there. -/
theorem addProject_checks (hknown : s.knows (actor.map PersonRecord.id)) (hnew : s.nextId ∉ s.projects.keys)
    (people : List Person) (template : ProjectTemplate) (existing : List DayAllocation) (overrides : List DayOverride)
    (sink : Option ProjectSink) :
    (¬ s.Checks solver intent people template today existing overrides ∧
        s.SameRows ((addProject solver intent actor people template today existing overrides sink).run s).2) ∨
      s.Checks solver intent people template today existing overrides ∧
        ((addProject solver intent actor people template today existing overrides sink).run s).2.Briefed s.nextId
          intent.briefReturnDate := by
  rcases addProject_run_cases solver intent actor people template today existing overrides sink s with
    ⟨hno, n, e, hrun⟩ | ⟨title, tasks, deps, plan, earliestEnd, hchecks, hrun⟩
  · rw [hrun]
    exact Or.inl ⟨hno, rfl⟩
  refine Or.inr ⟨⟨title, tasks, deps, plan, earliestEnd, hchecks⟩, ?_⟩
  have hwritten := @recordProject_briefed intent actor (s.drawn (1 + template.tasks.length)) s.nextId hknown hnew
    title tasks plan
  rw [hrun, run_bind]
  rcases hrecord : (recordProject title intent (actor.map PersonRecord.id) s.nextId tasks plan).run
      (s.drawn (1 + template.tasks.length)) with ⟨_ | ⟨project, pv⟩, s'⟩ <;> rw [hrecord] at hwritten
  · exact hwritten
  · have hmirrored := mirrorProject_briefed sink
      ⟨title, intent.templateCode, tasks.map Task.name, intent.deadline⟩ s.nextId project.id _ hwritten
    obtain ⟨page, s'', hpage, -⟩ := mirrorProject_run sink
      ⟨title, intent.templateCode, tasks.map Task.name, intent.deadline⟩ project.id s'
    dsimp only at hmirrored ⊢
    rw [run_bind, hpage]
    rw [hpage] at hmirrored
    exact hmirrored

theorem buildAddProjectReply_plans (hknown : s.knows (actor.map PersonRecord.id)) (hnew : s.nextId ∉ s.projects.keys)
    (sink : Option ProjectSink) :
    (¬ s.Plans solver today intent ∧ s.SameRows ((buildAddProjectReply solver intent actor today sink).run s).2) ∨
      s.Plans solver today intent ∧
        ((buildAddProjectReply solver intent actor today sink).run s).2.Briefed s.nextId intent.briefReturnDate := by
  simp only [buildAddProjectReply, run_bind _ _ s, Repo.getProjectTemplate, run_read]
  cases htemplate : s.projectTemplate intent.templateCode with
  | none =>
    refine Or.inl ⟨?_, rfl⟩
    rintro ⟨template, h, -⟩
    cases htemplate.symm.trans h
  | some template =>
    simp only [run_bind _ _ s, Repo.getSolverPeople, run_read]
    by_cases hpeople : s.solverPeople = []
    · simp only [hpeople, List.isEmpty_nil, if_true]
      refine Or.inl ⟨?_, rfl⟩
      rintro ⟨_, _, h, _⟩
      exact h hpeople
    · have hsome : ¬ s.solverPeople.isEmpty = true := by simpa using hpeople
      have hload : Repo.listCommittedPlans.run s = (.ok s.committedPayloads, s) := run_read _ _
      have hchecks := @addProject_checks solver intent actor today s hknown hnew s.solverPeople template s.committedLoad
        [] sink
      rw [if_neg hsome, run_bind_of_ok hload, run_bind_quiet]
      · rw [run_attempt]
        dsimp only
        refine hchecks.imp ?_ ?_
        · rintro ⟨hno, hsame⟩
          refine ⟨?_, hsame⟩
          rintro ⟨template', ht, -, h⟩
          cases htemplate.symm.trans ht
          exact hno h
        · rintro ⟨hyes, hbriefed⟩
          exact ⟨⟨template, htemplate, hpeople, hyes⟩, hbriefed⟩
      · intro r t
        split <;> rfl

end Propose

section Execute

variable {ctx : ToolContext} {args : Args} {s : Store}

/-- A tool that raises has written what it has written. -/
theorem execute_store (box : ToolBox) (tool : Tool) (name : String) (hname : Tool.ofName name = some tool)
    (hadmin : ctx.isAdmin = true) :
    ((box.execute ctx args name).run s).2 = ((tool.executor ctx args box).run s).2 := by
  simp only [ToolBox.execute, hname, hadmin, Bool.not_true, Bool.false_eq_true, and_false, if_false, run_bind, run_attempt]
  split <;> rfl

theorem planTool_store (box : ToolBox) {intent : AddProjectIntent} (hargs : planIntent args = .ok intent) :
    ((planTool ctx args box).run s).2 =
      ((buildAddProjectReply ctx.solver intent ctx.actor ctx.today ctx.projectSink).run s).2 := by
  rw [planTool, hargs, run_bind_of_ok (run_ofExcept _ _)]
  refine run_bind_quiet _ (fun r t => ?_) s
  cases r <;> rfl

theorem vacationTool_store (box : ToolBox) {intent : VacationIntent} (hargs : vacationIntent args = .ok intent) :
    ((vacationTool ctx args box).run s).2 = ((setVacation intent (ctx.actor.map PersonRecord.id) true).run s).2 := by
  simp only [vacationTool, hargs, run_bind _ _ s, run_ofExcept, run_attempt]
  split <;> rfl

theorem assignTool_store (box : ToolBox) {taskRef personName : String} (htask : args.requiredText "task_ref" = .ok taskRef)
    (hperson : args.requiredText "person" = .ok personName) :
    ((assignTool ctx args box).run s).2 =
      ((buildAssignReply ctx.tables taskRef personName (ctx.actor.map PersonRecord.id)).run s).2 := by
  rw [assignTool, htask, run_bind_of_ok (run_ofExcept _ _), hperson, run_bind_of_ok (run_ofExcept _ _)]
  exact run_bind_quiet _ (fun _ _ => rfl) s

theorem captureTool_store {intent : CaptureTaskIntent} (hargs : CaptureArgs args intent) :
    ((captureTool ctx args {}).run s).2 = ((captureTask ctx.tables ctx.taskSink intent ctx.actor).run s).2 := by
  rw [captureTool_run hargs]
  exact run_bind_quiet _ (fun _ _ => rfl) s

end Execute

section Dispatch

variable {bot : Bot} {u : Update} {actor : Actor} {s : Store} {lastPvId : Option UUID} {fsm : ChatState}

/-- The tables after the dispatcher, and after the tool. -/
def Bot.dispatched (bot : Bot) (u : Update) (actor : Actor) (lastPvId : Option UUID) (fsm : ChatState) (intent : Intent)
    (s : Store) : Store :=
  ((dispatchIntent bot.tables (bot.chat u actor) lastPvId fsm intent).run s).2

def Bot.executed (bot : Bot) (u : Update) (actor : Actor) (use : ToolUse) (s : Store) : Store :=
  ((ToolBox.execute (bot.toolContext u actor) use.args {} use.name).run s).2

theorem canExecute_admin (hadmin : actor.isAdmin = true) (intent : Intent) : canExecute intent actor.isAdmin = true := by
  rw [canExecute, hadmin, Bool.or_true]

theorem dispatch_addProject_iff (hadmin : actor.isAdmin = true) (hknown : s.knows (actor.record.map PersonRecord.id))
    (hnew : s.nextId ∉ s.projects.keys) {intent : AddProjectIntent} {args : Args}
    (h : planIntent args = .ok { intent with briefReturnDate := none }) :
    (bot.dispatched u actor lastPvId fsm (.addProject intent) s).SameRows
        (bot.executed u actor ⟨"plan_project", args⟩ s) ↔ bot.CarriesOut u actor s (.addProject intent) := by
  have htool : bot.executed u actor ⟨"plan_project", args⟩ s = ((buildAddProjectReply bot.solver
      { intent with briefReturnDate := none } actor.record u.today bot.projectSink).run s).2 :=
    (execute_store {} .planProject "plan_project" rfl hadmin).trans (planTool_store {} h)
  have hexec := canExecute_admin hadmin (.addProject intent)
  have hplans := @buildAddProjectReply_plans bot.solver { intent with briefReturnDate := none } actor.record
    u.today s hknown hnew bot.projectSink
  rw [Store.plans_brief] at hplans
  rw [htool]
  generalize ht : ((buildAddProjectReply bot.solver { intent with briefReturnDate := none } actor.record u.today
    bot.projectSink).run s).2 = t at *
  cases hrecord : actor.record with
  | none =>
    have hstay : bot.dispatched u actor lastPvId fsm (.addProject intent) s = s := by
      simp only [Bot.dispatched, dispatchIntent, Bot.chat, hrecord, hexec, if_true]
      rfl
    rw [hstay]
    rcases hplans with ⟨hno, hsame⟩ | ⟨hyes, hbriefed⟩
    · exact iff_of_true hsame fun hplans => absurd hplans hno
    · refine iff_of_false (fun hsame => ?_) fun hcarries => ?_
      · obtain ⟨row, hrow, -⟩ := hbriefed
        rw [congrArg Store.projects hsame] at hrow
        exact hnew (OrdDict.mem_keys.mpr (Option.isSome_iff_exists.mpr ⟨row, hrow⟩))
      · rw [Bot.CarriesOut, hrecord] at hcarries
        cases (hcarries hyes).1
  | some record =>
    have hboth : bot.dispatched u actor lastPvId fsm (.addProject intent) s =
        ((buildAddProjectReply bot.solver intent actor.record u.today bot.projectSink).run s).2 := by
      simp only [Bot.dispatched, dispatchIntent, Bot.chat, hrecord, hexec, if_true]
      refine run_bind_quiet _ (fun r t => ?_) s
      cases r <;> rfl
    have hplans' := @buildAddProjectReply_plans bot.solver intent actor.record u.today s hknown hnew bot.projectSink
    rw [hboth]
    by_cases hbrief : intent.briefReturnDate = none
    · have hsame : { intent with briefReturnDate := none } = intent := by rw [← hbrief]
      rw [hsame] at ht
      rw [ht]
      exact iff_of_true (Store.SameRows.refl _) fun _ => ⟨by rw [hrecord]; rfl, hbrief⟩
    · generalize ((buildAddProjectReply bot.solver intent actor.record u.today bot.projectSink).run s).2 = d at *
      rcases hplans with ⟨hno, hsame⟩ | ⟨hyes, hbriefed⟩ <;> rcases hplans' with ⟨hno', hsame'⟩ | ⟨hyes', hbriefed'⟩
      · exact iff_of_true (hsame'.symm.trans hsame) fun hplans => absurd hplans hno
      · exact absurd hyes' hno
      · exact absurd hyes hno'
      · exact iff_of_false (fun hsame => hbrief (hsame.briefed hbriefed' hbriefed)) fun hcarries => hbrief (hcarries hyes).2

theorem dispatch_vacation_iff (hadmin : actor.isAdmin = true) (hknown : s.knows (actor.record.map PersonRecord.id))
    {intent : VacationIntent} {args : Args} (h : vacationIntent args = .ok intent) :
    (bot.dispatched u actor lastPvId fsm (.vacation intent) s).SameRows
        (bot.executed u actor ⟨"set_vacation", args⟩ s) ↔ bot.CarriesOut u actor s (.vacation intent) := by
  have htool : bot.executed u actor ⟨"set_vacation", args⟩ s =
      ((setVacation intent (actor.record.map PersonRecord.id) true).run s).2 :=
    (execute_store {} .setVacation "set_vacation" rfl hadmin).trans (vacationTool_store {} h)
  have hstay : bot.dispatched u actor lastPvId fsm (.vacation intent) s = s := by
    simp only [Bot.dispatched, dispatchIntent, Bot.chat, canExecute_admin hadmin, if_true]
    rfl
  rw [htool, hstay]
  rcases setVacation_run hknown intent with ⟨hno, e, hrun⟩ | ⟨person, hyes, -, hrun⟩
  · rw [hrun]
    exact iff_of_true (Store.SameRows.refl _) hno
  · rw [hrun]
    refine iff_of_false (fun hsame => ?_) (not_not_intro hyes)
    have haudit : _ ++ [_] = s.audit := congrArg Store.audit hsame
    rw [Store.daysOff_eq] at haudit
    exact List.cons_ne_nil _ _ (List.append_right_eq_self.mp haudit)

theorem dispatch_assign_iff (hadmin : actor.isAdmin = true) {taskRef personName : String} {args : Args} (htask : args.requiredText "task_ref" = .ok taskRef)
    (hperson : args.requiredText "person" = .ok personName) :
    (bot.dispatched u actor lastPvId fsm (.assign taskRef personName) s).SameRows
        (bot.executed u actor ⟨"assign_task", args⟩ s) ↔ bot.CarriesOut u actor s (.assign taskRef personName) := by
  have htool : bot.executed u actor ⟨"assign_task", args⟩ s =
      ((buildAssignReply bot.tables taskRef personName (actor.record.map PersonRecord.id)).run s).2 :=
    (execute_store {} .assignTask "assign_task" rfl hadmin).trans (assignTool_store {} htask hperson)
  have hexec := canExecute_admin hadmin (.assign taskRef personName)
  rw [htool]
  cases hrecord : actor.record with
  | some record =>
    have hboth : bot.dispatched u actor lastPvId fsm (.assign taskRef personName) s =
        ((buildAssignReply bot.tables taskRef personName (some record.id)).run s).2 := by
      simp only [Bot.dispatched, dispatchIntent, Bot.chat, hrecord, hexec, if_true]
      exact run_bind_quiet _ (fun _ _ => rfl) s
    rw [hboth]
    exact iff_of_true (Store.SameRows.refl _) fun _ => by rw [hrecord]; rfl
  | none =>
    have hstay : bot.dispatched u actor lastPvId fsm (.assign taskRef personName) s = s := by
      simp only [Bot.dispatched, dispatchIntent, Bot.chat, hrecord, hexec, if_true]
      rfl
    have hnobody : s.knows none := nofun
    rw [hstay]
    rcases buildAssignReply_run (U := bot.tables) hnobody taskRef personName with
      ⟨hno, text, hrun⟩ | ⟨person, task, text, hfound, hmatch, -, hrun⟩
    · rw [Option.map_none, hrun]
      exact iff_of_true (Store.SameRows.refl _) fun hassigns => absurd hassigns hno
    · rw [Option.map_none, hrun]
      refine iff_of_false (fun hsame => ?_) fun hcarries => ?_
      · have haudit : (s.reassigned task.1 person.id).audit ++ [_] = s.audit := congrArg Store.audit hsame
        rw [Store.reassigned, Store.audit_editInPlan] at haudit
        exact List.cons_ne_nil _ _ (List.append_right_eq_self.mp haudit)
      · have hassigns : s.Assigns bot.tables taskRef personName := ⟨by rw [hfound]; rfl, task, hmatch⟩
        rw [Bot.CarriesOut, hrecord] at hcarries
        cases hcarries hassigns

theorem dispatch_captureTask (hadmin : actor.isAdmin = true) {intent : CaptureTaskIntent} {args : Args}
    (h : CaptureArgs args intent) :
    bot.dispatched u actor lastPvId fsm (.captureTask intent) s = bot.executed u actor ⟨"capture_task", args⟩ s := by
  have htool : bot.executed u actor ⟨"capture_task", args⟩ s =
      ((captureTask bot.tables bot.taskSink intent actor.record).run s).2 :=
    (execute_store {} .captureTask "capture_task" rfl hadmin).trans (captureTool_store h)
  rw [htool]
  simp only [Bot.dispatched, dispatchIntent, Bot.chat, canExecute_admin hadmin, if_true]
  exact run_bind_quiet _ (fun _ _ => rfl) s

end Dispatch

section Vacation

/-- Anna, as the bot knows her. -/
def annaActor : Actor := ⟨true, some { id := 0, name := "Анна" }⟩

def annaVacation : VacationIntent := ⟨"Анна", 739768, 739768, 0⟩

theorem sameCall_vacation : SameCall (.vacation annaVacation) vacationCall := .vacation rfl

end Vacation

end Planner
