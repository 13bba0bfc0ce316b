import Planner.CaptureRace
import Planner.ConfirmFaults
import Planner.EditsSurvive
import Planner.OperationRuns

/-! Operations on single tasks that fail halfway. Each is a sequence of writes, every one
in a transaction of its own, and what was written before a failure stays. -/

namespace Planner

open Program

namespace Store

/-- The row of the task, the committed payload, the log. -/
def reassignWrites (taskId personId : UUID) (actorId : Option UUID) : List (Store → Store) :=
  [fun s => s.setAssignee taskId personId 8,
    fun s => s.editInPlan taskId fun a => { a with
      personId := personId, allocations := a.allocations.map ({ · with personId := personId }) },
    fun s => s.putAudit (reassignAudit taskId personId actorId)]

def editAudit (taskId : UUID) (start end_ : Option Date) (actorId : Option UUID) : AuditRow :=
  ⟨actorId, "edit_task", "task", some taskId, some [("start", .text ((start.map Date.isoformat).getD "")),
    ("end", .text ((end_.map Date.isoformat).getD ""))]⟩

/-- The dates of the row, of the committed payload, the log. -/
def rescheduleWrites (taskId : UUID) (start end_ : Option Date) (actorId : Option UUID) : List (Store → Store) :=
  [fun s => s.modifyTask taskId fun t => { t with startDate := start.or t.startDate, endDate := end_.or t.endDate },
    fun s => s.editInPlan taskId fun a => { a with startDate := start.getD a.startDate, endDate := end_.getD a.endDate },
    fun s => s.putAudit (editAudit taskId start end_ actorId)]

/-- One row for each day. -/
def dayWrites (personId : UUID) (capacityH : Int) : Nat → Date → List (Store → Store)
  | 0, _ => []
  | n + 1, day => (fun s => s.putOverride personId day ⟨capacityH, some "vacation"⟩) :: dayWrites personId capacityH n (day + 1)

def vacationWrites (intent : VacationIntent) (personId : UUID) (actorId : Option UUID) : List (Store → Store) :=
  dayWrites personId intent.capacityH (intent.dayTo - intent.dayFrom + 1) intent.dayFrom ++
    [fun s => s.putAudit (vacationAudit intent personId actorId)]

section Capture

variable (U : CharTables) (s : Store)

/-- A project that is not there is made under a new id. -/
def housingWrites (name : Option String) (actorId : Option UUID) : List (Store → Store) :=
  match s.projectByTitle U (captureTarget name) with
  | some _ => []
  | none => [fun t => t.drawn 1, fun t => t.putProject s.nextId (s.stubRow (captureTarget name) actorId)]

/-- One row for each name that is found. -/
def nameWrites (taskId : UUID) (hours : Int) (names : List String) : List (Store → Store) :=
  names.filterMap fun name => (s.personByName name).map fun person t => t.putAssignment taskId person.id hours

def filingWrites (home : UUID × String) (intent : CaptureTaskIntent) (actorId : Option UUID) : List (Store → Store) :=
  [fun t => t.drawn 1, fun t => t.putTask s.nextId (intent.row home.1)] ++
    (s.nameWrites s.nextId intent.hours intent.assigneeNames ++ [fun t => t.putAudit (s.captureAudit intent home.2 actorId)])

def captureWrites (intent : CaptureTaskIntent) (actorId : Option UUID) : List (Store → Store) :=
  s.housingWrites U intent.projectName actorId ++
    match findDuplicate U ((s.housed U intent.projectName actorId).projectTasks (s.homeOf U intent.projectName).1)
        intent.taskTitle with
    | some _ => []
    | none => (s.housed U intent.projectName actorId).filingWrites (s.homeOf U intent.projectName) intent actorId

end Capture

end Store

/-- What changes single tasks and days: from the chat, from the web, and the two use-cases. -/
inductive TaskOperation
  | assign (taskRef personName : String) (actorId : Option UUID)
  | reassign (isAdmin : Bool) (taskId personId : FormField UUID) (actorId : Option UUID)
  | edit (isAdmin : Bool) (taskId : UUID) (start end_ : FormField Date) (actorId : Option UUID)
  | vacation (intent : VacationIntent) (actorId : Option UUID) (isAdmin : Bool)
  | capture (sink : Option TaskSink) (intent : CaptureTaskIntent) (actor : Option PersonRecord)

namespace TaskOperation

variable (U : CharTables)

/-- The operation, its answer left aside. -/
def program : TaskOperation → UseCase Unit
  | .assign taskRef personName actorId => buildAssignReply U taskRef personName actorId >>= fun _ => Pure.pure ()
  | .reassign isAdmin taskId personId actorId => Planner.reassign isAdmin taskId personId actorId
  | .edit isAdmin taskId start end_ actorId => editTask isAdmin taskId start end_ actorId
  | .vacation intent actorId isAdmin => setVacation intent actorId isAdmin >>= fun _ => Pure.pure ()
  | .capture sink intent actor => captureTask U sink intent actor >>= fun _ => Pure.pure ()

/-- The writes it makes of the tables it finds, in order. -/
def writes (s : Store) : TaskOperation → List (Store → Store)
  | .assign taskRef personName actorId =>
    match s.personByName personName, matchTasks U taskRef s.tasksWithMeta with
    | some person, [task] => Store.reassignWrites task.1 person.id actorId
    | _, _ => []
  | .reassign isAdmin taskId personId actorId =>
    match isAdmin, taskId, personId with
    | true, .value tid, .value pid =>
      if tid ∈ s.tasks.keys ∧ pid ∈ s.people.keys then Store.reassignWrites tid pid actorId else []
    | _, _, _ => []
  | .edit isAdmin taskId start end_ actorId =>
    if isAdmin = true ∧ start ≠ .bad ∧ end_ ≠ .bad then Store.rescheduleWrites taskId start.value? end_.value? actorId else []
  | .vacation intent actorId isAdmin =>
    if isAdmin = true ∧ validVacation intent = .ok () then
      match s.personByName intent.personName with
      | some person => Store.vacationWrites intent person.id actorId
      | none => []
    else []
  | .capture _ intent actor => s.captureWrites U intent (actor.map PersonRecord.id)

end TaskOperation

section Steps

variable {U : CharTables} {fault : PlannerError → Prop} {s : Store} {actorId : Option UUID}

theorem addAudit_stepwise (action entityType : String) (entityId : Option UUID) (payload : Option (List (String × AuditValue))) :
    (Repo.addAudit actorId action entityType entityId payload).Stepwise fault s
      [fun s => s.putAudit ⟨actorId, action, entityType, entityId, payload⟩] fun _ => True :=
  Stepwise.guarded.mono fun _ _ => trivial

theorem editInPlan_stepwise (taskId : UUID) (f : Assignment → Assignment) :
    (Repo.editInPlan taskId f).Stepwise fault s [fun s => s.editInPlan taskId f] fun _ => True := by
  refine Stepwise.call (Or.inl ?_)
  unfold Store.editInPlan
  cases s.committedVersionOf taskId with
  | none => exact ⟨_, rfl, trivial⟩
  | some v => exact ⟨_, rfl, trivial⟩

theorem setTaskAssignee_stepwise {taskId personId : UUID} (ht : taskId ∈ s.tasks.keys) (hp : personId ∈ s.people.keys) :
    (Repo.setTaskAssignee taskId personId).Stepwise fault s [fun s => s.setAssignee taskId personId 8] (· = true) := by
  refine Stepwise.call (Or.inl ⟨true, ?_, rfl⟩)
  rw [if_neg (not_not_intro ht), if_pos hp]

theorem buildAssignReply_stepwise (taskRef personName : String) : (buildAssignReply U taskRef personName actorId).Stepwise fault s
    ((TaskOperation.assign taskRef personName actorId).writes U s) fun _ => True := by
  refine Stepwise.quiet_bind (Stepwise.read _) fun found hfound => ?_
  rw [TaskOperation.writes, ← hfound]
  cases found with
  | none => exact Stepwise.answer _
  | some person =>
    refine Stepwise.quiet_bind (Stepwise.read _) fun tasks htasks => ?_
    obtain rfl : tasks = s.tasksWithMeta := htasks
    rcases hmatch : matchTasks U taskRef s.tasksWithMeta with _ | ⟨task, _ | ⟨task', rest⟩⟩
    · exact Stepwise.answer _
    · have ht : task.1 ∈ s.tasks.keys :=
        Store.mem_tasksWithMeta (mem_matchTasks (hmatch ▸ List.mem_singleton_self task))
      refine (setTaskAssignee_stepwise ht (Store.personByName_mem hfound.symm)).step_bind fun moved hmoved => ?_
      rw [if_pos hmoved]
      refine (editInPlan_stepwise _ _).step_bind fun _ _ => ?_
      exact (addAudit_stepwise _ _ _ _).bind_quiet fun _ _ => Stepwise.answer _
    · exact Stepwise.answer _

theorem reassign_stepwise (isAdmin : Bool) (taskId personId : FormField UUID) :
    (reassign isAdmin taskId personId actorId).Stepwise fault s
      ((TaskOperation.reassign isAdmin taskId personId actorId).writes U s) fun _ => True := by
  unfold reassign
  cases isAdmin with
  | false => exact Stepwise.raise _
  | true =>
    cases personId with
    | blank => cases taskId <;> exact Stepwise.answer ()
    | bad => exact Stepwise.raise _
    | value pid =>
      cases taskId with
      | blank => exact Stepwise.raise _
      | bad => exact Stepwise.raise _
      | value tid =>
        refine Stepwise.quiet_bind (Stepwise.read _) fun people hpeople => ?_
        obtain rfl : people = s.peopleByName.map fun e => e.2.record e.1 := hpeople
        split
        · exact Stepwise.raise _
        · rename_i hfound
          have hp : pid ∈ s.people.keys := by
            by_contra hp
            refine hfound (List.all_eq_true.mpr fun p hm => decide_eq_true fun hid => ?_)
            exact hp (mem_listPeople.mp ⟨p, hm, hid⟩)
          rw [TaskOperation.writes]
          by_cases ht : tid ∈ s.tasks.keys
          · rw [if_pos ⟨ht, hp⟩]
            refine (setTaskAssignee_stepwise ht hp).step_bind fun moved hmoved => ?_
            rw [if_pos hmoved]
            exact (editInPlan_stepwise _ _).step_bind fun _ _ => addAudit_stepwise _ _ _ _
          · rw [if_neg fun h => ht h.1]
            have hnone : (Repo.setTaskAssignee tid pid).Stepwise fault s [] (· = false) :=
              Stepwise.quiet_call (by rw [if_pos ht])
            exact hnone.quiet_bind fun moved hmoved => by
              rw [hmoved]
              exact Stepwise.answer ()

theorem toDate_stepwise {field : FormField Date} (h : field ≠ .bad) :
    (field.toDate).Stepwise fault s [] (· = field.value?) := by
  cases field with
  | blank => exact Stepwise.pure _
  | bad => exact absurd rfl h
  | value d => exact Stepwise.pure _

theorem editTask_stepwise (isAdmin : Bool) (taskId : UUID) (start end_ : FormField Date) :
    (editTask isAdmin taskId start end_ actorId).Stepwise fault s
      ((TaskOperation.edit isAdmin taskId start end_ actorId).writes U s) fun _ => True := by
  unfold editTask
  rw [TaskOperation.writes]
  cases isAdmin with
  | false => exact Stepwise.raise _
  | true =>
    by_cases hstart : start = .bad
    · have hno : ¬ (true = true ∧ start ≠ .bad ∧ end_ ≠ .bad) := fun h => h.2.1 hstart
      rw [if_neg hno, hstart]
      exact Stepwise.raise _
    · by_cases hend : end_ = .bad
      · have hno : ¬ (true = true ∧ start ≠ .bad ∧ end_ ≠ .bad) := fun h => h.2.2 hend
        rw [if_neg hno, hend]
        exact (toDate_stepwise hstart).quiet_bind fun _ _ => Stepwise.raise _
      · have hyes : true = true ∧ start ≠ .bad ∧ end_ ≠ .bad := ⟨rfl, hstart, hend⟩
        rw [if_pos hyes]
        refine (toDate_stepwise hstart).quiet_bind fun startD hs => ?_
        refine (toDate_stepwise hend).quiet_bind fun endD he => ?_
        subst hs he
        refine (Stepwise.call (Or.inl ⟨(), rfl, rfl⟩) (Q := (· = ()))).step_bind fun _ _ => ?_
        exact (editInPlan_stepwise _ _).step_bind fun _ _ => addAudit_stepwise _ _ _ _

theorem upsertDays_stepwise (personId : UUID) (capacityH : Int) (n : Nat) (day : Date) :
    (upsertDays personId capacityH n day).Stepwise fault s (Store.dayWrites personId capacityH n day) fun _ => True := by
  induction n generalizing day s with
  | zero => exact Stepwise.answer ()
  | succ n ih => exact Stepwise.guarded.step_bind fun _ _ => ih (day + 1)

theorem setVacation_stepwise (intent : VacationIntent) (isAdmin : Bool) : (setVacation intent actorId isAdmin).Stepwise fault s
    ((TaskOperation.vacation intent actorId isAdmin).writes U s) fun _ => True := by
  unfold setVacation
  rw [TaskOperation.writes]
  cases isAdmin with
  | false => exact Stepwise.raise _
  | true =>
    refine Stepwise.quiet_bind (Stepwise.ofExcept _) fun _ hvalid => ?_
    rw [if_pos ⟨rfl, hvalid⟩]
    refine Stepwise.quiet_bind (Stepwise.read _) fun found hfound => ?_
    rw [← hfound]
    cases found with
    | none => exact Stepwise.raise _
    | some person =>
      refine (upsertDays_stepwise _ _ _ _).bind fun _ _ => ?_
      exact (addAudit_stepwise _ _ _ _).bind_quiet fun _ _ => Stepwise.answer _

theorem resolveProject_stepwise (name : Option String) (actor : Option PersonRecord) :
    (resolveProject U name actor).Stepwise fault s (s.housingWrites U name (actor.map PersonRecord.id))
      fun project => project.id = (s.homeOf U name).1 ∧ project.title = (s.homeOf U name).2 := by
  refine Stepwise.quiet_bind (Stepwise.read _) fun found hfound => ?_
  change found = (s.projectByTitle U (captureTarget name)).map _ at hfound
  unfold Store.housingWrites Store.homeOf
  cases htitle : s.projectByTitle U (captureTarget name) with
  | some e =>
    rw [htitle] at hfound
    subst hfound
    exact (Stepwise.pure _).mono fun project hproject => by
      subst hproject
      exact ⟨rfl, rfl⟩
  | none =>
    rw [htitle] at hfound
    subst hfound
    refine (Stepwise.call (Or.inl ⟨s.nextId, rfl, rfl⟩) (Q := (· = s.nextId))).step_bind fun pid hpid => ?_
    subst hpid
    refine Stepwise.call ?_
    by_cases hc : (s.drawn 1).knows (actor.map PersonRecord.id) ∧ s.nextId ∉ (s.drawn 1).projects.keys
    · exact Or.inl ⟨_, if_pos hc, rfl, rfl⟩
    · exact Or.inr ⟨_, if_neg hc⟩

theorem runSteps_housingWrites (name : Option String) (actorId : Option UUID) :
    runSteps (s.housingWrites U name actorId) s = s.housed U name actorId := by
  unfold Store.housingWrites Store.housed
  cases s.projectByTitle U (captureTarget name) <;> rfl

theorem assignNames_stepwise (taskId : UUID) (hours : Int) (names : List String) :
    (assignNames taskId hours names).Stepwise fault s (s.nameWrites taskId hours names) (· = s.namesFound names) := by
  induction names generalizing s with
  | nil => exact Stepwise.pure []
  | cons name rest ih =>
    refine Stepwise.quiet_bind (Stepwise.read _) fun found hfound => ?_
    change found = s.personByName name at hfound
    rw [Store.nameWrites, Store.namesFound, List.filterMap_cons, List.filterMap_cons, ← hfound]
    cases found with
    | none => exact ih
    | some person =>
      refine Stepwise.guarded.step_bind fun _ _ => ?_
      refine (ih (s := s.putAssignment taskId person.id hours)).bind_quiet fun names hnames => ?_
      exact (Stepwise.pure _).mono fun all hall => hall.trans (congrArg _ hnames)

theorem createTask_stepwise (projectId : UUID) (intent : CaptureTaskIntent) :
    (Repo.createTask projectId intent.taskTitle intent.hours intent.deadline intent.timeStart intent.requiredSkills).Stepwise
      fault s [fun t => t.drawn 1, fun t => t.putTask s.nextId (intent.row projectId)] (·.id = s.nextId) := by
  refine (Stepwise.call (Or.inl ⟨s.nextId, rfl, rfl⟩) (Q := (· = s.nextId))).step_bind fun tid htid => ?_
  subst htid
  exact Stepwise.guarded.mono fun task htask => congrArg TaskRecord.id htask

theorem captureTask_stepwise (sink : Option TaskSink) (intent : CaptureTaskIntent) (actor : Option PersonRecord) :
    (captureTask U sink intent actor).Stepwise fault s ((TaskOperation.capture sink intent actor).writes U s) fun _ => True := by
  unfold captureTask
  rw [TaskOperation.writes, Store.captureWrites]
  refine (resolveProject_stepwise _ _).bind fun project hproject => ?_
  obtain ⟨hid, htitle⟩ := hproject
  rw [runSteps_housingWrites]
  generalize s.housed U intent.projectName (actor.map PersonRecord.id) = t
  refine Stepwise.quiet_bind (Stepwise.read _) fun tasks htasks => ?_
  change tasks = t.projectTasks project.id at htasks
  rw [htasks, hid]
  cases hdup : findDuplicate U (t.projectTasks (s.homeOf U intent.projectName).1) intent.taskTitle with
  | some task => exact Stepwise.answer _
  | none =>
    refine (createTask_stepwise _ _).bind fun task htask => ?_
    rw [htask, htitle]
    refine Stepwise.bind (assignNames_stepwise _ _ _) fun names hnames => ?_
    change names = t.namesFound intent.assigneeNames at hnames
    rw [hnames]
    exact (addAudit_stepwise _ _ _ _).bind_quiet fun _ _ => Stepwise.answer _

end Steps

/-- Whatever fails, the tables hold the first of the writes, and all of them if the
operation answers. -/
theorem operation_prefix (U : CharTables) (fault : PlannerError → Prop) (op : TaskOperation) (s s' : Store)
    (r : Except PlannerError Unit) (h : (op.program U).Ends fault s r s') :
    ∃ n ≤ (op.writes U s).length, s' = runSteps ((op.writes U s).take n) s ∧ (r = .ok () → n = (op.writes U s).length) := by
  have hsteps : (op.program U).Stepwise fault s (op.writes U s) fun _ => True := by
    cases op with
    | assign taskRef personName actorId =>
      exact (buildAssignReply_stepwise taskRef personName).bind_quiet fun _ _ => Stepwise.answer ()
    | reassign isAdmin taskId personId actorId => exact reassign_stepwise isAdmin taskId personId
    | edit isAdmin taskId start end_ actorId => exact editTask_stepwise isAdmin taskId start end_
    | vacation intent actorId isAdmin =>
      exact (setVacation_stepwise intent isAdmin).bind_quiet fun _ _ => Stepwise.answer ()
    | capture sink intent actor => exact (captureTask_stepwise sink intent actor).bind_quiet fun _ _ => Stepwise.answer ()
  obtain ⟨n, hn, hs, hr⟩ := hsteps r s' h
  exact ⟨n, hn, hs, fun hok => (hr () hok).1⟩

/-- Nothing is to be seen of the operation, or all that it changes when nothing fails;
ids that were only drawn do not count. -/
def TaskOperation.AllOrNothing (U : CharTables) (op : TaskOperation) (s s' : Store) : Prop :=
  s' = { s with nextId := s'.nextId } ∨ s' = { ((op.program U).run s).2 with nextId := s'.nextId }

section Clip

/-- One day of shooting with Anna, which is confirmed; Boris is there, too. -/
def confirmedClip : Store :=
  ((confirmPlan none 12 none).run ((addProject .onWeekdays { title := "Ролик", templateCode := "lite" } none anna
    shooting 1 [] [] none).run twoShooters).2).2

/-- The database does not answer once. -/
def failsAt (k n : Nat) : Option PlannerError := if n = k then some .unavailable else none

theorem failsAt_ends (k : Nat) (p : UseCase Unit) (s : Store) :
    p.Ends (· = .unavailable) s (p.runFaulty (failsAt k) 0 s).1 (p.runFaulty (failsAt k) 0 s).2.2 := by
  refine Ends.runFaulty (fun n e he => ?_) p 0 s
  change (if n = k then some PlannerError.unavailable else none) = some e at he
  split at he
  · exact (Option.some.inj he).symm
  · cases he

/-- Boris takes the task over on the board. -/
def takeOver : TaskOperation := .reassign true (.value 11) (.value 9) none

theorem operation_prefix_clip : ∃ n ≤ (takeOver.writes .plain confirmedClip).length,
    ((takeOver.program .plain).runFaulty (failsAt 2) 0 confirmedClip).2.2 =
        runSteps ((takeOver.writes .plain confirmedClip).take n) confirmedClip ∧
      (((takeOver.program .plain).runFaulty (failsAt 2) 0 confirmedClip).1 = .ok () →
        n = (takeOver.writes .plain confirmedClip).length) :=
  operation_prefix .plain (· = .unavailable) takeOver confirmedClip _ _ (failsAt_ends 2 _ _)

/-- The operations, and the call that fails in each. -/
def interrupted : List (TaskOperation × Nat) :=
  [(.assign "Съёмка" "Борис" none, 3),
    (takeOver, 2),
    (.edit true 11 (.value 3) (.value 3) none, 1),
    (.vacation ⟨"Анна", 8, 9, 0⟩ none true, 2),
    (.capture none montage none, 4)]

def Store.rows (s : Store) : List (UUID × TaskRow) × List ((UUID × UUID) × Int) × List ((UUID × Date) × OverrideRow) :=
  (s.tasks.entries, s.assignments.entries, s.dayOverrides.entries)

theorem not_allOrNothing {U : CharTables} {op : TaskOperation} {s s' : Store} (hrows : s'.rows ≠ s.rows)
    (hlog : s'.audit.length ≠ ((op.program U).run s).2.audit.length) : ¬ op.AllOrNothing U s s' := by
  rintro (h | h)
  · apply hrows
    rw [h]
    rfl
  · apply hlog
    rw [h]

/-- Each of them can change a row and leave the log without its entry. -/
theorem operations_half_done : interrupted.Forall fun e => ∃ r s',
    (e.1.program .plain).Ends (· = .unavailable) confirmedClip r s' ∧
      ¬ e.1.AllOrNothing .plain confirmedClip s' := by
  refine List.forall_iff_forall_mem.mpr fun e he => ?_
  refine ⟨_, _, failsAt_ends e.2 _ _, ?_⟩
  have hrows : interrupted.all fun e =>
      ((e.1.program .plain).runFaulty (failsAt e.2) 0 confirmedClip).2.2.rows ≠ confirmedClip.rows := by
    decide +kernel
  have hlog : interrupted.all fun e => ((e.1.program .plain).runFaulty (failsAt e.2) 0 confirmedClip).2.2.audit.length ≠
      ((e.1.program .plain).run confirmedClip).2.audit.length := by
    decide +kernel
  exact not_allOrNothing (of_decide_eq_true (List.all_eq_true.mp hrows e he)) (of_decide_eq_true (List.all_eq_true.mp hlog e he))

end Clip

end Planner
