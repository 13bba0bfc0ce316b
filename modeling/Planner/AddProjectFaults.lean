import Planner.Bookings
import Planner.Lib.Faults

/-! A proposal that fails halfway. Nothing is written before the plan is there;
then project, tasks, version and audit entry follow one after the other, and
what was written before a failure stays. -/

namespace Planner

open Program

/-- The first `n` of the four writes of a proposal. -/
def Store.written (s : Store) (title : String) (actorId : Option UUID) (projectId : UUID) (row : ProjectRow)
    (tasks : List Task) (plan : PlanResult) : Nat → Store
  | 0 => s
  | 1 => s.putProject projectId row
  | 2 => (s.putProject projectId row).putTasks projectId tasks plan.assignments
  | 3 => ((s.putProject projectId row).putTasks projectId tasks plan.assignments).putVersion
      ⟨projectId, .proposed, serializePlan plan, actorId⟩
  | _ => s.recorded title actorId projectId row tasks plan

section Ends

variable {fault : PlannerError → Prop} {s s' : Store}

theorem recordProject_ends {title : String} {intent : AddProjectIntent} {actorId : Option UUID} {pid : UUID}
    {tasks : List Task} {plan : PlanResult} {r : Except PlannerError (ProjectRecord × PlanVersionRecord)}
    (h : (recordProject title intent actorId pid tasks plan).Ends fault s r s') :
    ∃ row, row.status = .planning ∧
      ((∃ n < 4, s' = s.written title actorId pid row tasks plan n ∧
          ∃ e, (e = .integrity ∨ fault e) ∧ r = .error e) ∨
        s' = s.written title actorId pid row tasks plan 4 ∧
          ∃ project pv, r = .ok (project, pv) ∧ project.id = pid ∧ pv.id = s.nextId) := by
  refine ⟨⟨title, s.templateIdOf intent.templateCode, intent.deadline, intent.briefReturnDate, "medium",
    .planning, none, actorId⟩, rfl, ?_⟩
  rcases Ends.of_bind h with ⟨project, s₁, h₁, h⟩ | ⟨e, h₁, rfl⟩
  swap
  · obtain ⟨hs, hwhy⟩ := Ends.of_guarded_error h₁
    exact Or.inl ⟨0, by decide, hs, e, hwhy, rfl⟩
  obtain ⟨rfl, rfl⟩ := Ends.of_guarded_ok h₁
  rcases Ends.of_bind h with ⟨_, s₂, h₂, h⟩ | ⟨e, h₂, rfl⟩
  swap
  · obtain ⟨hs, hwhy⟩ := Ends.of_guarded_error h₂
    exact Or.inl ⟨1, by decide, hs, e, hwhy, rfl⟩
  obtain ⟨-, rfl⟩ := Ends.of_guarded_ok h₂
  rcases Ends.of_bind h with ⟨pv, s₃, h₃, h⟩ | ⟨e, h₃, rfl⟩
  swap
  · obtain ⟨hs, hwhy⟩ := Ends.of_guarded_error h₃
    exact Or.inl ⟨2, by decide, hs, e, hwhy, rfl⟩
  obtain ⟨rfl, rfl⟩ := Ends.of_guarded_ok h₃
  rcases Ends.of_bind h with ⟨_, s₄, h₄, h⟩ | ⟨e, h₄, rfl⟩
  swap
  · obtain ⟨hs, hwhy⟩ := Ends.of_guarded_error h₄
    exact Or.inl ⟨3, by decide, hs, e, hwhy, rfl⟩
  obtain ⟨-, rfl⟩ := Ends.of_guarded_ok h₄
  obtain ⟨rfl, rfl⟩ := Ends.of_pure h
  exact Or.inr ⟨rfl, _, _, rfl, rfl, rfl⟩

/-- Whatever fails in the mirror, it answers, and leaves at most the page id. -/
theorem mirrorProject_ends {sink : Option ProjectSink} {card : SinkProject} {pid : UUID}
    {r : Except PlannerError (Option String)} (h : (mirrorProject sink card pid).Ends fault s r s') :
    (∃ page, r = .ok page) ∧
      (s' = s ∨ ∃ id, s' = s.modifyProject pid ({ · with notionPageId := some id })) := by
  cases sink with
  | none =>
    obtain ⟨rfl, rfl⟩ := Ends.of_pure h
    exact ⟨⟨_, rfl⟩, Or.inl rfl⟩
  | some sink =>
    rcases Ends.of_bind h with ⟨caught, s₁, h₁, h⟩ | ⟨e, h₁, -⟩
    swap
    · obtain ⟨_, -, hx⟩ := Ends.of_attempt h₁
      cases hx
    have hanswer : (∃ page, r = .ok page) ∧ s' = s₁ := by
      cases caught with
      | ok page =>
        obtain ⟨rfl, rfl⟩ := Ends.of_pure h
        exact ⟨⟨_, rfl⟩, rfl⟩
      | error e =>
        obtain ⟨rfl, rfl⟩ := Ends.of_pure h
        exact ⟨⟨_, rfl⟩, rfl⟩
    obtain ⟨hok, rfl⟩ := hanswer
    refine ⟨hok, ?_⟩
    obtain ⟨_, hcard, -⟩ := Ends.of_attempt h₁
    rcases Ends.of_bind hcard with ⟨page, s₂, h₂, hset⟩ | ⟨e, h₂, -⟩
    swap
    · exact Or.inl (Ends.of_ofExcept h₂).2
    obtain ⟨-, rfl⟩ := Ends.of_ofExcept h₂
    cases page with
    | none => exact Or.inl (Ends.of_pure hset).2
    | some id =>
      by_cases hid : id = ""
      · simp only [hid, if_true] at hset
        exact Or.inl (Ends.of_pure hset).2
      · simp only [hid, if_false] at hset
        rcases Ends.of_bind hset with ⟨_, s₃, h₃, hset⟩ | ⟨e, h₃, -⟩
        · obtain ⟨-, rfl⟩ := Ends.of_call_ok h₃
          exact Or.inr ⟨id, (Ends.of_pure hset).2⟩
        · rcases Ends.of_call h₃ with ⟨hx, -⟩ | ⟨hs, -⟩
          · cases hx
          · exact Or.inl hs

theorem addProject_ends {solver : GreedySolver} {intent : AddProjectIntent} {actor : Option PersonRecord}
    {people : List Person} {template : ProjectTemplate} {today : Date} {existing : List DayAllocation}
    {overrides : List DayOverride} {sink : Option ProjectSink} {r : Except PlannerError AddProjectResult}
    (h : (addProject solver intent actor people template today existing overrides sink).Ends fault s r s') :
    (∃ n, s' = s.drawn n ∧ ∃ e, r = .error e) ∨
    ∃ title row tasks deps plan, row.status = .planning ∧
      instantiate template s.nextId (List.range' (s.nextId + 1) template.tasks.length) = .ok (tasks, deps) ∧
      solver.plan (projectRequest people tasks deps today overrides existing intent.deadline) = .ok plan ∧
      ((∃ n < 4, s' = (s.drawn (1 + template.tasks.length)).written title (actor.map PersonRecord.id) s.nextId
          row tasks plan n ∧ ∃ e, (e = .integrity ∨ fault e) ∧ r = .error e) ∨
        s' = (s.drawn (1 + template.tasks.length)).written title (actor.map PersonRecord.id) s.nextId
          row tasks plan 4 ∧
        ∃ result, r = .ok result ∧ result.planVersionId = (s.drawn (1 + template.tasks.length)).nextId) := by
  have hdrawn : (s.drawn 1).drawn template.tasks.length = s.drawn (1 + template.tasks.length) := by
    simp only [Store.drawn, Nat.add_assoc]
  rcases Ends.of_bind_ofExcept h with ⟨title, -, k₁⟩ | ⟨e, -, rfl, hs⟩
  swap
  · exact Or.inl ⟨0, hs, e, rfl⟩
  rcases Ends.of_bind k₁ with ⟨pid, s₂, h₂, k₂⟩ | ⟨e, h₂, rfl⟩
  swap
  · rcases Ends.of_call h₂ with ⟨hx, -⟩ | ⟨hs, -⟩
    · cases hx
    · exact Or.inl ⟨0, hs, e, rfl⟩
  obtain ⟨hpid, rfl⟩ := Ends.of_call_ok h₂
  obtain rfl := Except.ok.inj hpid
  rcases Ends.of_bind k₂ with ⟨⟨tasks, deps⟩, s₃, h₃, k₃⟩ | ⟨e, h₃, rfl⟩
  swap
  · rcases Ends.of_bind h₃ with ⟨ids, s₄, h₄, hi⟩ | ⟨e, h₄, -⟩
    · obtain ⟨-, rfl⟩ := Ends.of_call_ok h₄
      exact Or.inl ⟨_, (Ends.of_ofExcept hi).2.trans hdrawn, e, rfl⟩
    · rcases Ends.of_call h₄ with ⟨hx, -⟩ | ⟨hs, -⟩
      · cases hx
      · exact Or.inl ⟨1, hs, _, rfl⟩
  obtain ⟨ids, s₄, h₄, hi⟩ := Ends.of_bind_ok h₃
  obtain ⟨hids, rfl⟩ := Ends.of_call_ok h₄
  obtain rfl := Except.ok.inj hids
  obtain ⟨hinst, rfl⟩ := Ends.of_ofExcept hi
  rcases Ends.of_bind_ofExcept k₃ with ⟨plan, hplan, k₅⟩ | ⟨e, -, rfl, hs⟩
  swap
  · exact Or.inl ⟨_, hs.trans hdrawn, e, rfl⟩
  rcases Ends.of_bind_ofExcept k₅ with ⟨earliestEnd, -, k₆⟩ | ⟨e, -, rfl, hs⟩
  swap
  · exact Or.inl ⟨_, hs.trans hdrawn, e, rfl⟩
  refine Or.inr ?_
  rw [hdrawn] at k₆
  rcases Ends.of_bind k₆ with ⟨⟨project, pv⟩, s₇, h₇, k₇⟩ | ⟨e, h₇, rfl⟩
  · obtain ⟨row, hrow, ⟨n, -, -, e, -, he⟩ | ⟨rfl, project', pv', hr, hid, hpv⟩⟩ := recordProject_ends h₇
    · cases he
    obtain ⟨rfl, rfl⟩ := Prod.mk.inj (Except.ok.inj hr)
    rcases Ends.of_bind k₇ with ⟨page, s₈, h₈, k₈⟩ | ⟨e, h₈, -⟩
    · obtain ⟨rfl, rfl⟩ := Ends.of_pure k₈
      obtain ⟨-, hsame | ⟨id, hpage⟩⟩ := mirrorProject_ends h₈
      · exact ⟨title, row, tasks, deps, plan, hrow, hinst.symm, solveProject_ok hplan,
          Or.inr ⟨hsame, _, rfl, hpv⟩⟩
      · refine ⟨title, { row with notionPageId := some id }, tasks, deps, plan, hrow, hinst.symm,
          solveProject_ok hplan, Or.inr ⟨?_, _, rfl, hpv⟩⟩
        rw [hpage, hid]
        exact modifyProject_recorded _ title _ _ row tasks plan _
    · obtain ⟨⟨_, hx⟩, -⟩ := mirrorProject_ends h₈
      cases hx
  · obtain ⟨row, hrow, ⟨n, hn, hs, e', hwhy, he⟩ | ⟨-, _, _, hx, -⟩⟩ := recordProject_ends h₇
    · obtain rfl := Except.error.inj he
      exact ⟨title, row, tasks, deps, plan, hrow, hinst.symm, solveProject_ok hplan,
        Or.inl ⟨n, hn, hs, e, hwhy, rfl⟩⟩
    · cases hx

end Ends

/-- The tables of a proposal as they were, or a new project with a proposed
version, its tasks and an entry in the log. -/
def Store.AdditionAtomic (s s' : Store) : Prop :=
  (s'.projects = s.projects ∧ s'.tasks = s.tasks ∧ s'.assignments = s.assignments ∧
    s'.planVersions = s.planVersions ∧ s'.audit = s.audit) ∨
  ∃ pid v pv entry, pid ∉ s.projects.keys ∧ pid ∈ s'.projects.keys ∧ s'.planVersions.get? v = some pv ∧
    pv.projectId = pid ∧ pv.status = .proposed ∧
    (∀ a ∈ pv.payload.assignments, a.taskId ∈ s'.tasks.keys) ∧ s'.audit = s.audit ++ [entry]

/-- The database does not answer when the tasks are written. -/
theorem shooting_ends : ∃ row : ProjectRow,
    (addProject .onWeekdays { title := "Ролик", templateCode := "lite" } none anna shooting 1 [] [] none).Ends
      (· = .unavailable) shootingStore (.error .unavailable) ((shootingStore.drawn 2).putProject 4 row) :=
  ⟨_, .operate (.operate (.operate (.fail rfl (.raise _ _))))⟩

end Planner
