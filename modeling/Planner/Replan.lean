import Planner.Repo

/-! The replan preview: the request is rebuilt from the committed payloads and
solved again. It writes nothing. -/

namespace Planner

def Assignment.hours (a : Assignment) : Int := (a.allocations.map DayAllocation.hours).sum

/-- The task a committed assignment is solved again as; without hours it is a
window, which takes no capacity. -/
def Assignment.rebuild (names : OrdDict UUID String) (a : Assignment) : Option Task :=
  if a.hours = 0 then none
  else some
    { id := a.taskId
      name := names.getD a.taskId "task"
      durationHours := a.hours
      allowedPersonIds := [a.personId] }

def rebuildTasks (names : OrdDict UUID String) (payloads : List Payload) : List Task :=
  (payloads.flatMap Payload.assignments).filterMap (Assignment.rebuild names)

def reconstructRequest (today : Date) : UseCase (Option PlanRequest) := do
  let people ← Repo.getSolverPeople
  if people.isEmpty then pure none
  else
    let payloads ← Repo.listCommittedPlans
    let nameMap ← Repo.getTaskNameMap
    let tasks := rebuildTasks nameMap payloads
    if tasks.isEmpty then pure none
    else
      let taskIds := tasks.map Task.id
      let deps ← Repo.listTaskDependencies
      let overrides ← Repo.listDayOverrides
      pure (some
        { people := people
          tasks := tasks
          dependencies := deps.filter fun d => d.taskId ∈ taskIds ∧ d.dependsOnId ∈ taskIds
          horizonStart := today
          dayOverrides := overrides })

/-- The plan whose overloads the summary reports, if there is anything to replan. -/
def buildReplanSummary (solver : GreedySolver) (today : Date) : UseCase (Option PlanResult) := do
  match ← reconstructRequest today with
  | none => pure none
  | some request =>
    match solver.plan request with
    | .ok plan => pure (some plan)
    | .error e => .raise (.solver e)

namespace Store

def taskNames (s : Store) : OrdDict UUID String := s.tasks.mapEntries fun _ t => t.name

def rebuiltTasks (s : Store) : List Task := rebuildTasks s.taskNames s.committedPayloads

/-- The request a replan solves, if any. -/
def replanRequest (s : Store) (today : Date) : Option PlanRequest :=
  if s.solverPeople = [] ∨ s.rebuiltTasks = [] then none
  else some
    { people := s.solverPeople
      tasks := s.rebuiltTasks
      dependencies := s.dependencyList.filter fun d =>
        d.taskId ∈ s.rebuiltTasks.map Task.id ∧ d.dependsOnId ∈ s.rebuiltTasks.map Task.id
      horizonStart := today
      dayOverrides := s.overrideList }

end Store

theorem reconstructRequest_run (today : Date) (s : Store) :
    (reconstructRequest today).run s = (.ok (s.replanRequest today), s) := by
  simp only [reconstructRequest, Repo.getSolverPeople, Repo.listCommittedPlans, Repo.getTaskNameMap,
    Repo.listTaskDependencies, Repo.listDayOverrides, Program.run_bind, Program.run_read,
    List.isEmpty_iff, Store.replanRequest]
  by_cases hp : s.solverPeople = []
  · simp only [hp, if_true, true_or, Program.run_pure]
  · have he : rebuildTasks (s.tasks.mapEntries fun _ t => t.name) s.committedPayloads =
        s.rebuiltTasks := rfl
    simp only [hp, if_false, false_or, Program.run_bind, Program.run_read, he]
    by_cases ht : s.rebuiltTasks = []
    · simp only [ht, if_true, Program.run_pure]
    · simp only [ht, if_false, Program.run_bind, Program.run_read, Program.run_pure]

theorem buildReplanSummary_cases {solver : GreedySolver} {today : Date} {s s' : Store}
    {r : Except PlannerError (Option PlanResult)}
    (h : (buildReplanSummary solver today).run s = (r, s')) :
    s' = s ∧ r = match s.replanRequest today with
      | none => .ok none
      | some req => (solver.plan req).map some |>.mapError .solver := by
  simp only [buildReplanSummary, Program.run_bind, reconstructRequest_run] at h
  cases hreq : s.replanRequest today with
  | none =>
    simp only [hreq, Program.run_pure, Prod.mk.injEq] at h
    exact ⟨h.2.symm, h.1.symm⟩
  | some req =>
    simp only [hreq] at h
    cases hplan : solver.plan req with
    | ok plan =>
      simp only [hplan, Program.run_pure, Prod.mk.injEq] at h
      simp only [hplan]
      exact ⟨h.2.symm, h.1.symm⟩
    | error e =>
      simp only [hplan, Program.run_raise, Prod.mk.injEq] at h
      simp only [hplan]
      exact ⟨h.2.symm, h.1.symm⟩

/-- The plan of a summary is the plan of the rebuilt request. -/
theorem buildReplanSummary_planned {solver : GreedySolver} {today : Date} {s s' : Store} {plan : PlanResult}
    (h : (buildReplanSummary solver today).run s = (.ok (some plan), s')) :
    ∃ req, s.replanRequest today = some req ∧ solver.plan req = .ok plan := by
  obtain ⟨-, hsummary⟩ := buildReplanSummary_cases h
  cases hreq : s.replanRequest today with
  | none =>
    rw [hreq] at hsummary
    cases hsummary
  | some req =>
    rw [hreq] at hsummary
    dsimp only at hsummary
    cases hplan : solver.plan req with
    | error e =>
      rw [hplan] at hsummary
      cases hsummary
    | ok res =>
      rw [hplan] at hsummary
      exact ⟨req, rfl, hplan.trans (congrArg Except.ok (Option.some.inj (Except.ok.inj hsummary)).symm)⟩

theorem buildReplanSummary_of_plan {solver : GreedySolver} {today : Date} {s : Store} {req : PlanRequest}
    {plan : PlanResult} (hreq : s.replanRequest today = some req) (hplan : solver.plan req = .ok plan) :
    (buildReplanSummary solver today).run s = (.ok (some plan), s) := by
  cases hout : (buildReplanSummary solver today).run s with
  | mk r s' =>
    obtain ⟨rfl, rfl⟩ := buildReplanSummary_cases hout
    rw [hreq]
    dsimp only
    rw [hplan]
    rfl

end Planner
