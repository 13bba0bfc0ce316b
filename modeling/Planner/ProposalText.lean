import Planner.CompletePlan
import Planner.ReplanText
import Planner.RequestEffects

/-! The text of a proposal: the tasks with their people and days, the overloaded days,
and whether the deadline holds. What it lists is what a confirmation commits. -/

namespace Planner

/-- `strftime("%d.%m")` -/
def Date.dm (d : Date) : String :=
  let (_, month, day) := d.toYmd
  Date.pad 2 day ++ "." ++ Date.pad 2 month

namespace PlanExplainer

def levers : String :=
  "Рычаги: сократить объём (lite) | добавить исполнителя | перенести дедлайн — напишите, какой применить."

def assignmentLine (taskNames personNames : OrdDict UUID String) (a : Assignment) : String :=
  let window := if a.startDate = a.endDate then a.startDate.dm else a.startDate.dm ++ "–" ++ a.endDate.dm
  "• " ++ taskNames.getD a.taskId "задача" ++ " → " ++ personNames.getD a.personId "—" ++ " (" ++ window ++ ")"

def overloadLine (personNames : OrdDict UUID String) (r : RiskFlag) : String :=
  let who := match r.personId with
    | some p => personNames.getD p "—"
    | none => "—"
  let day := match r.day with
    | some d => " " ++ d.dm
    | none => ""
  "  – " ++ who ++ day ++ ": " ++ r.message

def deadlineLines (plan : PlanResult) (deadline earliestEnd : Option Date) : List String :=
  let missed := plan.risks.filter fun r => r.kind = .deadlineMissed
  match deadline with
  | some d =>
    if missed ≠ [] ∨ plan.endDate.any (d < ·) then
      let tail := match earliestEnd with
        | some e => " (по шаблону ранняя дата " ++ e.dm ++ ")"
        | none => ""
      ["⚠ Дедлайн " ++ d.dm ++ " жёсткий, план плотный" ++ tail ++ "."]
    else ["✅ Дедлайн " ++ d.dm ++ " достижим."]
  | none => []

def endLines (plan : PlanResult) (deadline earliestEnd : Option Date) : List String :=
  match deadline, earliestEnd, plan.endDate with
  | none, some e, _ => ["Самая ранняя дата завершения: " ++ e.dm ++ "."]
  | none, none, some e => ["Завершение: " ++ e.dm ++ "."]
  | _, _, _ => []

/-- The function `explain_plan`. -/
def explainPlan (plan : PlanResult) (taskNames personNames : OrdDict UUID String) (deadline earliestEnd : Option Date) :
    String :=
  let overloads := plan.overloads
  "\n".intercalate (
    (if plan.assignments = [] then ["План пуст: задач нет."]
    else ("План: " ++ toString plan.assignments.length ++ " задач(и).") ::
      plan.assignments.map (assignmentLine taskNames personNames)) ++
    (if overloads = [] then []
    else ("⚠ Перегрузы: " ++ toString overloads.length ++ ".") :: overloads.map (overloadLine personNames)) ++
    deadlineLines plan deadline earliestEnd ++
    (if overloads ≠ [] ∧ deadline = none then [levers] else []) ++
    endLines plan deadline earliestEnd)

end PlanExplainer

/-- `ExplainPlanUseCase`; the model that words the summary may be missing or fail. -/
structure ExplainPlan where
  llm : Option (String → Except String String) := none

/-- A summary that the model leaves blank stands as it is. -/
def ExplainPlan.execute (explainer : ExplainPlan) (summary : String) : String :=
  match explainer.llm with
  | none => summary
  | some llm =>
    match llm summary with
    | .error _ => summary
    | .ok enriched => if strip enriched = "" then summary else strip enriched

def projectText (title summary : String) (notionPageId : Option String) : String :=
  let text := "Проект «" ++ title ++ "» — предложенный план:\n" ++ summary
  match notionPageId.filter (· ≠ "") with
  | some id => text ++ "\n\n🔗 Notion (проект): " ++ notionUrl id
  | none => text

def AddProjectResult.text (explainer : ExplainPlan) (people : List Person) (deadline : Option Date)
    (result : AddProjectResult) : String :=
  let taskNames := OrdDict.ofList (result.tasks.map fun t => (t.id, t.name))
  let personNames := OrdDict.ofList (people.map fun p => (p.id, p.name))
  projectText result.project.title
    (explainer.execute (PlanExplainer.explainPlan result.plan taskNames personNames deadline result.earliestEnd))
    result.notionPageId

/-- `build_add_project_reply`, up to the text it answers. The people it names are
those it plans with. -/
def buildAddProjectText (explainer : ExplainPlan) (solver : GreedySolver) (intent : AddProjectIntent)
    (actor : Option PersonRecord) (today : Date) (sink : Option ProjectSink) : UseCase (String × Option UUID) := do
  let people ← Repo.getSolverPeople
  match ← buildAddProjectReply solver intent actor today sink with
  | .error text => pure (text, none)
  | .ok result => pure (result.text explainer people intent.deadline, some result.planVersionId)

namespace PlanExplainer

/-- The line of a task, nothing left out. -/
def taskLine (name who : String) (start end_ : Date) : String :=
  "• " ++ name ++ " → " ++ who ++ " (" ++ (if start = end_ then start.dm else start.dm ++ "–" ++ end_.dm) ++ ")"

/-- How many times its ceiling the hours of a day are, rounded up. -/
def overloadText (day : Date) (hours ceiling : Int) : String :=
  "≈" ++ toString (hoursToWorkingDays hours ceiling) ++ " раб. дн. нагрузки на 1 день, " ++ day.isoformat ++ "."

/-- The line of a day with more hours than its ceiling. -/
def overloadedDay (who : String) (day : Date) (hours ceiling : Int) : String :=
  "  – " ++ who ++ " " ++ day.dm ++ ": " ++ overloadText day hours ceiling

/-- The date that was asked for, or the earliest there is. -/
def verdict (deadline : Option Date) (assignments : List Assignment) (days : List (UUID × Date)) (earliest : Date) :
    List String :=
  match deadline with
  | some d =>
    if ∀ a ∈ assignments, a.endDate ≤ d then ["✅ Дедлайн " ++ d.dm ++ " достижим."]
    else ["⚠ Дедлайн " ++ d.dm ++ " жёсткий, план плотный."]
  | none => (if days = [] then [] else [levers]) ++ ["Самая ранняя дата завершения: " ++ earliest.dm ++ "."]

def planText (assignments : List Assignment) (days : List (UUID × Date)) (name who : UUID → String)
    (load ceiling : UUID × Date → Int) (verdict : List String) : String :=
  "\n".intercalate (("План: " ++ toString assignments.length ++ " задач(и).") ::
    assignments.map (fun a => taskLine (name a.taskId) (who a.personId) a.startDate a.endDate) ++
    (if days = [] then [] else ("⚠ Перегрузы: " ++ toString days.length ++ ".") ::
      days.map fun b => overloadedDay (who b.1) b.2 (load b) (ceiling b)) ++ verdict)

end PlanExplainer

/-- The hours of a day, those already committed included. -/
def Store.loadBeside (s : Store) (plan : PlanResult) (b : UUID × Date) : Int :=
  hoursOn (s.committedLoad ++ plan.assignments.flatMap Assignment.allocations) b.1 b.2

/-- The ceiling of a day in the chat: that of the pool, without overrides. -/
def Store.poolCeiling (s : Store) (cal : WorkingCalendar) (b : UUID × Date) : Int :=
  capacityOn s.solverPeople cal [] b.1 b.2

/-- What the lines of a proposal made in `s` say of the plan and of the tables `s'` it left. -/
structure Store.Offers (s : Store) (cal : WorkingCalendar) (result : AddProjectResult) (s' : Store)
    (days : List (UUID × Date)) (name who : UUID → String) : Prop where
  once : (result.plan.assignments.map Assignment.taskId).Nodup
  complete : ∀ tid, tid ∈ result.plan.assignments.map Assignment.taskId ↔
    ∃ row, s'.tasks.get? tid = some row ∧ row.projectId = result.project.id
  task_named : ∀ a ∈ result.plan.assignments, ∃ row, s'.tasks.get? a.taskId = some row ∧ row.name = name a.taskId
  person_named : ∀ a ∈ result.plan.assignments, ∃ row, s'.people.get? a.personId = some row ∧ row.name = who a.personId
  nodup : days.Nodup
  overloaded : ∀ b, b ∈ days ↔ s.poolCeiling cal b < s.loadBeside result.plan b
  day_named : ∀ b ∈ days, (b.1 ∈ s.solverPeople.map Person.id ∧
      ∃ row, s'.people.get? b.1 = some row ∧ row.name = who b.1) ∨
    b.1 ∉ s.solverPeople.map Person.id ∧ who b.1 = "—"

section Checks

variable {solver : GreedySolver} {intent : AddProjectIntent} {actor : Option PersonRecord} {people : List Person}
  {template : ProjectTemplate} {today : Date} {existing : List DayAllocation} {overrides : List DayOverride}
  {sink : Option ProjectSink} {s s' : Store} {result : AddProjectResult}

theorem createProject_title {title templateCode : String} {deadline briefReturnDate : Option Date}
    {actorId : Option UUID} {projectId : UUID} {project : ProjectRecord}
    (h : (Repo.createProject title templateCode deadline briefReturnDate actorId projectId).run s = (.ok project, s')) :
    project.title = title := by
  simp only [Repo.createProject, Program.run_call] at h
  split at h
  · obtain rfl := Except.ok.inj (Prod.mk.inj h).1
    rfl
  · cases h

/-- What a proposal that went through had checked and computed. -/
theorem addProject_checked
    (h : (addProject solver intent actor people template today existing overrides sink).run s = (.ok result, s')) :
    validProject intent template today = .ok result.project.title ∧
      ∃ deps, instantiate template s.nextId (List.range' (s.nextId + 1) template.tasks.length) = .ok (result.tasks, deps) ∧
        solver.plan (projectRequest people result.tasks deps today overrides existing intent.deadline) = .ok result.plan ∧
        earliestEndOf solver (projectRequest people result.tasks deps today overrides existing intent.deadline) today =
          .ok result.earliestEnd := by
  rcases addProject_run_cases solver intent actor people template today existing overrides sink s with
    ⟨-, n, e, hrun⟩ | ⟨title, tasks, deps, plan, earliestEnd, ⟨hvalid, hinst, hplan, hend⟩, hrun⟩
  · rw [hrun] at h
    cases h
  rw [hrun] at h
  obtain ⟨rows, s₁, hrecord, h⟩ := Program.run_bind_eq_ok h
  obtain ⟨page, s₂, -, h⟩ := Program.run_bind_eq_ok h
  obtain ⟨hresult, -⟩ := Prod.mk.inj h
  obtain rfl := Except.ok.inj hresult
  refine ⟨?_, deps, hinst, solveProject_ok hplan, hend⟩
  -- the title that was written is the one that was checked
  obtain ⟨project, s₃, hcreate, h⟩ := Program.run_bind_eq_ok hrecord
  obtain ⟨_, s₄, -, h⟩ := Program.run_bind_eq_ok h
  obtain ⟨pv, s₅, -, h⟩ := Program.run_bind_eq_ok h
  obtain ⟨_, s₆, -, h⟩ := Program.run_bind_eq_ok h
  obtain rfl := Except.ok.inj (Prod.mk.inj h).1
  rw [hvalid, createProject_title hcreate]

/-- The chat proposes from the pool and the committed load. -/
theorem addProject_of_reply
    (h : (buildAddProjectReply solver intent actor today sink).run s = (.ok (.ok result), s')) :
    ∃ template, (addProject solver intent actor s.solverPeople template today s.committedLoad [] sink).run s =
      (.ok result, s') := by
  simp only [buildAddProjectReply, Program.run_bind, Repo.getProjectTemplate, Repo.getSolverPeople,
    Repo.listCommittedPlans, Program.run_read] at h
  cases htemplate : s.projectTemplate intent.templateCode with
  | none =>
    rw [htemplate] at h
    cases h
  | some template =>
    rw [htemplate] at h
    dsimp only at h
    by_cases hpeople : s.solverPeople.isEmpty = true
    · simp only [Program.run_bind, Program.run_read, if_pos hpeople] at h
      cases h
    · simp only [Program.run_bind, Program.run_read, if_neg hpeople, Program.run_attempt] at h
      rw [show s.committedPayloads.flatMap deserializeAllocations = s.committedLoad from rfl] at h
      refine ⟨template, ?_⟩
      generalize (addProject solver intent actor s.solverPeople template today s.committedLoad [] sink).run s = outcome at h
      obtain ⟨answer, s₁⟩ := outcome
      cases answer with
      | ok r =>
        obtain ⟨hr, rfl⟩ := Prod.mk.inj h
        rw [Except.ok.inj (Except.ok.inj hr)]
      | error e => cases e <;> cases h

end Checks

section Lines

open ReplanText PlanExplainer

variable {solver : GreedySolver} {req : PlanRequest} {res : PlanResult}

/-- The ends of a plan of movable tasks are those of its assignments. -/
theorem endDate_any_iff (hpin : req.Unpinned) (h : solver.plan req = .ok res) (d : Date) :
    res.endDate.any (d < ·) = true ↔ ¬ ∀ a ∈ res.assignments, a.endDate ≤ d := by
  obtain ⟨order, st, -, -, rfl, -, hvalues⟩ := plan_booked hpin h
  have hmax : (planResult req order st).endDate = ((planResult req order st).assignments.map Assignment.endDate).max? := by
    rw [hvalues]
    rfl
  rw [hmax]
  cases hlast : ((planResult req order st).assignments.map Assignment.endDate).max? with
  | none =>
    have hnil : (planResult req order st).assignments = [] := by simpa using List.max?_eq_none_iff.mp hlast
    simp [hnil]
  | some e =>
    obtain ⟨hmem, hle⟩ := List.max?_eq_some_iff.mp hlast
    obtain ⟨a, ha, rfl⟩ := List.mem_map.mp hmem
    simp only [Option.any_some, decide_eq_true_eq, not_forall, not_le]
    constructor
    · exact fun hlt => ⟨a, ha, hlt⟩
    · rintro ⟨b, hb, hlt⟩
      exact lt_of_lt_of_le hlt (hle _ (List.mem_map_of_mem hb))

/-- The deadline line goes by the last day alone: a missed deadline is flagged only past it. -/
theorem deadlineLines_some (hpin : req.Unpinned) (h : solver.plan req = .ok res) {d : Date}
    (hd : req.deadline = some d) (days : List (UUID × Date)) (earliest : Date) :
    deadlineLines res (some d) none = verdict (some d) res.assignments days earliest := by
  have hend := endDate_any_iff hpin h d
  obtain ⟨order, st, -, -, rfl⟩ := plan_ok h
  have hmissed : ((planResult req order st).risks.filter fun r => r.kind = .deadlineMissed) ≠ [] →
      (planResult req order st).endDate.any (d < ·) = true := by
    intro hne
    obtain ⟨r, hr⟩ := List.exists_mem_of_ne_nil _ hne
    obtain ⟨hr, hkind⟩ := List.mem_filter.mp hr
    rcases List.mem_append.mp hr with hflag | hr
    · obtain ⟨p, e, hlists⟩ := listsOverload_of_mem hflag
      simp [hlists.1] at hkind
    · cases hlast : (st.assignments.values.map Assignment.endDate).max? with
      | none => simp [hlast] at hr
      | some e =>
        have hlate : d < e := by
          by_contra hnot
          simp [hd, hlast, hnot] at hr
        change ((st.assignments.values.map Assignment.endDate).max?).any (d < ·) = true
        rw [hlast]
        exact decide_eq_true hlate
  have hor : (((planResult req order st).risks.filter fun r => r.kind = .deadlineMissed) ≠ [] ∨
      (planResult req order st).endDate.any (d < ·) = true) ↔
        ¬ ∀ a ∈ (planResult req order st).assignments, a.endDate ≤ d := by
    rw [← hend]
    exact or_iff_right_of_imp hmissed
  simp only [deadlineLines, verdict]
  by_cases hle : ∀ a ∈ (planResult req order st).assignments, a.endDate ≤ d
  · rw [if_neg (fun ho => hor.mp ho hle), if_pos hle]
  · rw [if_pos (hor.mpr hle), if_neg hle, String.append_empty, String.append_assoc]
    rfl

/-- The flag of a day, with the hours and the ceiling it was made from. -/
theorem overloadFlags_line {idx : CapacityIndex} {r : RiskFlag} (hr : r ∈ overloadFlags idx) (names : OrdDict UUID String) :
    PlanExplainer.overloadLine names r = overloadedDay (names.getD (flagDay r).1 "—") (flagDay r).2
      (idx.usedOn (flagDay r).1 (flagDay r).2) (idx.baseCapacity (flagDay r).1 (flagDay r).2) := by
  obtain ⟨⟨p, d, u, b⟩, ho, rfl⟩ := List.mem_map.mp hr
  obtain ⟨-, rfl, rfl, -⟩ := CapacityIndex.mem_overloads.mp ho
  simp only [PlanExplainer.overloadLine, flagDay, Option.getD_some, overloadedDay, overloadText, String.append_assoc]

/-- A plan that is not empty is explained line by line. -/
theorem explainPlan_eq (taskNames : OrdDict UUID String) {personNames : OrdDict UUID String}
    {deadline earliestEnd : Option Date} {load ceiling : UUID × Date → Int} {earliest : Date} (hne : res.assignments ≠ [])
    (hdays : ∀ r ∈ res.overloads, PlanExplainer.overloadLine personNames r =
      overloadedDay (personNames.getD (flagDay r).1 "—") (flagDay r).2 (load (flagDay r)) (ceiling (flagDay r)))
    (hverdict : deadlineLines res deadline earliestEnd ++ (if res.overloads ≠ [] ∧ deadline = none then [levers] else []) ++
      endLines res deadline earliestEnd = verdict deadline res.assignments (res.overloads.map flagDay) earliest) :
    explainPlan res taskNames personNames deadline earliestEnd =
      planText res.assignments (res.overloads.map flagDay) (taskNames.getD · "задача") (personNames.getD · "—") load ceiling
        (verdict deadline res.assignments (res.overloads.map flagDay) earliest) := by
  have hlines : res.overloads.map (PlanExplainer.overloadLine personNames) = (res.overloads.map flagDay).map fun b =>
      overloadedDay (personNames.getD b.1 "—") b.2 (load b) (ceiling b) := by
    rw [List.map_map]
    exact List.map_congr_left hdays
  have hnil : res.overloads.map flagDay = [] ↔ res.overloads = [] := List.map_eq_nil_iff
  rw [explainPlan, planText, ← hverdict, ← hlines, if_neg hne, List.length_map]
  simp only [hnil, List.append_assoc]
  rfl

end Lines

section Proposal

open ReplanText PlanExplainer

variable {solver : GreedySolver} {intent : AddProjectIntent} {actor : Option PersonRecord} {today : Date}
  {sink : Option ProjectSink} {s s' : Store} {result : AddProjectResult}

/-- The names a proposal gives to its tasks are those of the rows it wrote. -/
theorem Proposed.task_named {people : List Person} {template : ProjectTemplate} {existing : List DayAllocation}
    {overrides : List DayOverride}
    (h : Proposed solver intent actor people template today existing overrides s result s') {t : Task}
    (ht : t ∈ result.tasks) :
    ∃ row, s'.tasks.get? t.id = some row ∧ row.projectId = result.project.id ∧
      row.name = (OrdDict.ofList (result.tasks.map fun t => (t.id, t.name))).getD t.id "задача" := by
  have hkeys : ((result.tasks.map fun t => (t.id, taskRow result.project.id (scheduleOf result.plan.assignments) t)).map
      Prod.fst).Nodup := by
    rw [List.map_map]
    exact h.recordable.tasks_nodup
  have hnames : ((result.tasks.map fun t => (t.id, t.name)).map Prod.fst).Nodup := by
    rw [List.map_map]
    exact h.recordable.tasks_nodup
  refine ⟨taskRow result.project.id (scheduleOf result.plan.assignments) t, ?_, rfl, ?_⟩
  · rw [h.tasks]
    exact OrdDict.get?_insertAll_of_mem _ _ hkeys (List.mem_map.mpr ⟨t, ht, rfl⟩)
  · rw [OrdDict.getD, OrdDict.get?_ofList_of_mem hnames (List.mem_map.mpr ⟨t, ht, rfl⟩)]
    rfl

/-- The tasks of the new project are those of the proposal. -/
theorem Proposed.task_of_project {people : List Person} {template : ProjectTemplate} {existing : List DayAllocation}
    {overrides : List DayOverride} (hs : s.WF)
    (h : Proposed solver intent actor people template today existing overrides s result s') {tid : UUID} {row : TaskRow}
    (hrow : s'.tasks.get? tid = some row) (hproject : row.projectId = result.project.id) :
    tid ∈ result.tasks.map Task.id := by
  rw [h.tasks] at hrow
  rcases OrdDict.mem_of_get?_insertAll hrow with hnew | hold
  · obtain ⟨t, ht, he⟩ := List.mem_map.mp hnew
    exact (Prod.mk.inj he).1 ▸ List.mem_map_of_mem ht
  · have hmem := hs.task_project row (OrdDict.mem_values.mpr ⟨tid, hold⟩)
    rw [hproject, h.project_id] at hmem
    exact absurd hmem h.recordable.project_new

/-- Every planned task has one line, and so has every task of the new project. -/
theorem Proposed.offers {template : ProjectTemplate} (hs : s.WF)
    (h : Proposed solver intent actor s.solverPeople template today s.committedLoad [] s result s') {idx : CapacityIndex}
    (hflags : result.plan.overloads = overloadFlags idx)
    (hexact : ∀ p d, (∃ r ∈ overloadFlags idx, r.ListsOverload p d) ↔
      s.poolCeiling solver.calendar (p, d) < s.loadBeside result.plan (p, d)) :
    s.Offers solver.calendar result s' (result.plan.overloads.map flagDay)
      ((OrdDict.ofList (result.tasks.map fun t => (t.id, t.name))).getD · "задача")
      ((OrdDict.ofList (s.solverPeople.map fun p => (p.id, p.name))).getD · "—") := by
  have hperson : ∀ p ∈ s.solverPeople.map Person.id, ∃ row, s'.people.get? p = some row ∧
      row.name = (OrdDict.ofList (s.solverPeople.map fun p => (p.id, p.name))).getD p "—" := by
    intro p hp
    obtain ⟨row, hrow, hname⟩ := Store.solverPeople_name hp
    refine ⟨row, h.people_eq ▸ hrow, ?_⟩
    rw [OrdDict.getD, hname, Option.getD_some]
  obtain ⟨deps, hinst, hplan⟩ := h.planned
  constructor
  · exact h.plan_tasks.1
  · intro tid
    rw [(taskIds_perm h.recordable.tasks_nodup hplan).mem_iff]
    constructor
    · intro htid
      obtain ⟨t, ht, rfl⟩ := List.mem_map.mp htid
      obtain ⟨row, hrow, hproject, -⟩ := h.task_named ht
      exact ⟨row, hrow, hproject⟩
    · rintro ⟨row, hrow, hproject⟩
      exact h.task_of_project hs hrow hproject
  · intro a ha
    obtain ⟨t, ht, hid⟩ := List.mem_map.mp (h.plan_tasks.2 a ha)
    obtain ⟨row, hrow, -, hname⟩ := h.task_named ht
    exact ⟨row, hid ▸ hrow, hid ▸ hname⟩
  · exact fun a ha => hperson a.personId (h.staffed ha)
  · rw [hflags]
    exact nodup_flagDays (fun r hr => listsOverload_of_mem hr) (nodup_overloadFlags idx)
  · intro b
    rw [hflags, mem_flagDays fun r hr => listsOverload_of_mem hr]
    exact hexact b.1 b.2
  · intro b _
    by_cases hb : b.1 ∈ s.solverPeople.map Person.id
    · exact Or.inl ⟨hb, hperson b.1 hb⟩
    · refine Or.inr ⟨hb, ?_⟩
      have hnone : (OrdDict.ofList (s.solverPeople.map fun p => (p.id, p.name))).get? b.1 = none := by
        rw [OrdDict.get?_eq_none_iff, OrdDict.mem_keys_ofList, List.map_map]
        exact hb
      rw [OrdDict.getD, hnone, Option.getD_none]

theorem earliestEndOf_some {req : PlanRequest} {e : Option Date} (h : earliestEndOf solver req today = .ok e)
    (d : Date) (hd : req.deadline = some d) : e = none := by
  rw [earliestEndOf, hd] at h
  exact (Except.ok.inj h).symm

theorem earliestEndOf_none {req : PlanRequest} {e : Option Date} (h : earliestEndOf solver req today = .ok e)
    (hd : req.deadline = none) : ∃ date, e = some date := by
  rw [earliestEndOf, hd] at h
  cases hend : solver.presentedEarliestEnd req today with
  | error err =>
    rw [hend] at h
    cases h
  | ok date =>
    rw [hend] at h
    exact ⟨date, (Except.ok.inj h).symm⟩

theorem tasks_of_validProject {template : ProjectTemplate} {title : String}
    (h : validProject intent template today = .ok title) : template.tasks ≠ [] := by
  intro hnil
  unfold validProject at h
  rw [hnil] at h
  dsimp only at h
  split at h
  · cases h
  · split at h <;> cases h

/-- The lines after the tasks and the days: the deadline's, or the levers and the earliest end. -/
theorem closing_eq {req : PlanRequest} {res : PlanResult} {e : Option Date} (hpin : req.Unpinned)
    (hplan : solver.plan req = .ok res) (hend : earliestEndOf solver req today = .ok e) : ∃ earliest,
    (req.deadline = none → e = some earliest) ∧
      deadlineLines res req.deadline e ++ (if res.overloads ≠ [] ∧ req.deadline = none then [levers] else []) ++
        endLines res req.deadline e = verdict req.deadline res.assignments (res.overloads.map flagDay) earliest := by
  cases hd : req.deadline with
  | some d =>
    obtain rfl := earliestEndOf_some hend d hd
    refine ⟨d, nofun, ?_⟩
    rw [deadlineLines_some hpin hplan hd (res.overloads.map flagDay) d, if_neg (by simp)]
    simp [endLines]
  | none =>
    obtain ⟨date, rfl⟩ := earliestEndOf_none hend hd
    refine ⟨date, fun _ => rfl, ?_⟩
    by_cases hflags : res.overloads = []
    · simp [deadlineLines, endLines, verdict, hflags]
    · simp [deadlineLines, endLines, verdict, hflags]

theorem Proposed.assigned {people : List Person} {template : ProjectTemplate} {existing : List DayAllocation}
    {overrides : List DayOverride}
    (h : Proposed solver intent actor people template today existing overrides s result s')
    (hne : template.tasks ≠ []) : result.plan.assignments ≠ [] := by
  obtain ⟨deps, hinst, hplan⟩ := h.planned
  obtain ⟨-, htasks, -⟩ := instantiate_ok hinst
  have hlen := (taskIds_perm h.recordable.tasks_nodup hplan).length_eq
  rw [List.length_map, List.length_map] at hlen
  change _ = result.tasks.length at hlen
  intro hnil
  rw [hnil, htasks, List.length_map] at hlen
  exact hne (List.length_eq_zero_iff.mp hlen.symm)

/-- What is confirmed is what was proposed, whatever is requested in between. -/
theorem Proposed.confirmed {people : List Person} {template : ProjectTemplate} {existing : List DayAllocation}
    {overrides : List DayOverride} (hs' : s'.WF)
    (h : Proposed solver intent actor people template today existing overrides s result s') {later : List Act}
    (hlater : ∀ act ∈ later, act.confirms result.planVersionId = false) (taskSink : Option TaskSink)
    (confirmer : Option PersonRecord) : ∃ row,
    ((Act.confirm taskSink result.planVersionId confirmer).perform (s'.after later)).planVersions.get?
      result.planVersionId = some row ∧
    row.status = .committed ∧ row.payload.assignments = result.plan.assignments := by
  have hv : s'.planVersions.get? result.planVersionId =
      some ⟨result.project.id, .proposed, serializePlan result.plan, actor.map PersonRecord.id⟩ := by
    rw [h.planVersions, OrdDict.get?_insert_self]
  have hkept := Store.version_after_proposed hs' hv rfl hlater
  have hconfirms : (Act.confirm taskSink result.planVersionId confirmer).confirms result.planVersionId = true := by
    simp [Act.confirms]
  refine ⟨_, Act.perform_version _ (hs'.after later) hkept, ?_, ?_⟩
  · rw [if_pos ⟨rfl, hconfirms⟩]
  · rfl

end Proposal

open ReplanText PlanExplainer

def clipIntent : AddProjectIntent where
  title := " Клип "
  templateCode := "long"
  deadline := some 2

end Planner
