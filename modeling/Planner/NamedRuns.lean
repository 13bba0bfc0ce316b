import Planner.DependencyLaw
import Planner.Naming
import Planner.PlainPlan

/-! A whole run of the scheduler over two requests that differ in their names
and in what the solver cannot see. -/

namespace Planner

/-- Somebody a task of the request may be given to. -/
def PlanRequest.Candidate (req : PlanRequest) (p : UUID) : Prop :=
  ∃ t ∈ req.tasks, ∃ c ∈ allowedPeople req t, c.id = p

/-- The same tasks and dependencies under other names, from the same day on and
for the same people in the same order of priority. -/
structure Naming.Matches (n : Naming) (req req' : PlanRequest) : Prop where
  tasks : req'.tasks = req.tasks.map (Task.renamed n)
  dependencies : req'.dependencies = req.dependencies.map (Dependency.renamed n)
  horizonStart : req'.horizonStart = req.horizonStart
  allowed : ∀ t ∈ req.tasks, List.Forall₂ n.Same (allowedPeople req t) (allowedPeople req' (t.renamed n))

/-- Two states of the loop, one for each request. -/
structure Naming.States (n : Naming) (R : CapacityIndex → CapacityIndex → Prop) (st st' : PlanState) : Prop where
  idx : R st.idx st'.idx
  assignments : OrdDict.Renames n.task (Assignment.renamed n) st.assignments st'.assignments

variable {n : Naming}

theorem buildDag_renamed (tasks : List Task) (deps : List Dependency) :
    EdgeGraph.Renames n.task (buildDag tasks deps)
      (buildDag (tasks.map (Task.renamed n)) (deps.map (Dependency.renamed n))) := by
  have hnodes : ∀ (ts : List Task) (g g' : Dag), EdgeGraph.Renames n.task g g' →
      EdgeGraph.Renames n.task (ts.foldl (fun g t => g.addNode t.id) g)
        ((ts.map (Task.renamed n)).foldl (fun g t => g.addNode t.id) g') := by
    intro ts
    induction ts with
    | nil => exact fun g g' h => h
    | cons t ts ih => exact fun g g' h => ih _ _ (h.addNode n.task_injective t.id)
  have hedges : ∀ (ds : List Dependency) (g g' : Dag), EdgeGraph.Renames n.task g g' →
      EdgeGraph.Renames n.task
        (ds.foldl (fun g d => g.addEdge d.dependsOnId d.taskId ⟨d.linkType, d.lagWorkingDays⟩) g)
        ((ds.map (Dependency.renamed n)).foldl
          (fun g d => g.addEdge d.dependsOnId d.taskId ⟨d.linkType, d.lagWorkingDays⟩) g') := by
    intro ds
    induction ds with
    | nil => exact fun g g' h => h
    | cons d ds ih => exact fun g g' h => ih _ _ (h.addEdge n.task_injective d.dependsOnId d.taskId _)
  exact hedges deps _ _ (hnodes tasks _ _ EdgeGraph.Renames.empty)

theorem pinned?_renamed (t : Task) : (t.renamed n).pinned? = t.pinned?.map (Assignment.renamed n) := by
  obtain ⟨id, name, hours, allowed, project, skills, split, pair, window, status, source, start, stop, assignee⟩ := t
  cases status with
  | done =>
    cases start with
    | none => rfl
    | some start =>
      cases assignee with
      | none => rfl
      | some assignee => rfl
  | notDone => rfl
  | preliminary => rfl
  | confirmed => rfl

section Request

variable {req req' : PlanRequest}

theorem Naming.Matches.tasksById (h : n.Matches req req') :
    OrdDict.Renames n.task (Task.renamed n) (tasksById req) (tasksById req') := by
  have hrows : (req'.tasks.map fun t => (t.id, t)) =
      (req.tasks.map fun t => (t.id, t)).map (Prod.map n.task (Task.renamed n)) := by
    rw [h.tasks, List.map_map, List.map_map]
    rfl
  rw [Planner.tasksById, Planner.tasksById, hrows]
  exact OrdDict.Renames.ofList n.task_injective _

theorem Naming.Matches.guard (h : n.Matches req req') :
    (!req'.tasks.isEmpty && req'.people.isEmpty) = (!req.tasks.isEmpty && req.people.isEmpty) := by
  have htasks : req'.tasks.isEmpty = req.tasks.isEmpty := by rw [h.tasks, List.isEmpty_map]
  rw [htasks]
  cases ht : req.tasks with
  | nil => rfl
  | cons t ts =>
    have hlength := (h.allowed t (ht ▸ List.mem_cons_self)).length_eq
    have hnone : ∀ (r : PlanRequest) (t : Task), (allowedPeople r t).length = 0 ↔ r.people.isEmpty = true := by
      intro r t
      rw [List.length_eq_zero_iff, List.isEmpty_iff]
      refine ⟨fun hnil => ?_, fun hnil => ?_⟩
      · by_contra hne
        exact allowedPeople_ne_nil hne t hnil
      · exact List.eq_nil_iff_forall_not_mem.mpr fun c hc => by simpa [hnil] using allowedPeople_subset hc
    have hpeople : req'.people.isEmpty = req.people.isEmpty := by
      rw [Bool.eq_iff_iff, ← hnone req t, ← hnone req' (t.renamed n), hlength]
    rw [hpeople]

end Request

section Runs

variable {cal : WorkingCalendar} {req req' : PlanRequest} {graph graph' : Dag} {st st' : PlanState}
  {R : CapacityIndex → CapacityIndex → Prop}

theorem earliestStart_renamed (hgraph : EdgeGraph.Renames n.task graph graph') {as as' : OrdDict UUID Assignment}
    (has : OrdDict.Renames n.task (Assignment.renamed n) as as') (t : Task) (start : Date) :
    earliestStart (t.renamed n) graph' as' start cal = earliestStart t graph as start cal := by
  have hraise : ∀ est dep, raiseStart cal graph' as' (n.task t.id) est (n.task dep) =
      raiseStart cal graph as t.id est dep := by
    intro est dep
    simp only [raiseStart, has.get? n.task_injective, hgraph.label? n.task_injective]
    cases as.get? dep with
    | none => rfl
    | some a =>
      cases graph.label? dep t.id with
      | none => rfl
      | some edge => rfl
  rw [earliestStart, earliestStart, show (t.renamed n).id = n.task t.id from rfl,
    hgraph.predecessors n.task_injective, List.foldl_map]
  simp only [hraise]

theorem pinTask_renamed {start : Date} {known : UUID → Prop} (hR : n.Indistinct cal start known R)
    (h : n.States R st st') (t : Task) : n.States R (pinTask st t) (pinTask st' (t.renamed n)) := by
  unfold pinTask
  rw [pinned?_renamed]
  cases t.pinned? with
  | none => exact h
  | some a => exact ⟨hR.occupy a.allocations h.idx, h.assignments.insert n.task_injective t.id a⟩

theorem foldl_pinTask_renamed {start : Date} {known : UUID → Prop} (hR : n.Indistinct cal start known R)
    (h : n.States R st st') (ts : List Task) :
    n.States R (ts.foldl pinTask st) ((ts.map (Task.renamed n)).foldl pinTask st') := by
  induction ts generalizing st st' with
  | nil => exact h
  | cons t ts ih => exact ih (pinTask_renamed hR h t)

theorem placeTask_renamed (hreq : n.Matches req req') (hgraph : EdgeGraph.Renames n.task graph graph')
    (hR : n.Indistinct cal req.horizonStart req.Candidate R) (h : n.States R st st') (tid : UUID) :
    SameOutcome (n.States R) (placeTask cal req graph st tid) (placeTask cal req' graph' st' (n.task tid)) := by
  unfold placeTask
  rw [h.assignments.contains n.task_injective, hreq.tasksById.get? n.task_injective]
  split
  · exact .ok h
  · cases htask : (tasksById req).get? tid with
    | none => exact .ok h
    | some task =>
      have hmem := (mem_of_tasksById htask).1
      have hlimit : horizonLimit req' = horizonLimit req := by rw [horizonLimit, horizonLimit, hreq.horizonStart]
      have hearliest : req.horizonStart ≤ earliestStart task graph st.assignments req.horizonStart cal :=
        horizonStart_le_earliestStart task req.horizonStart
      have hplace := hR.placeOn (horizonLimit req) h.idx (hreq.allowed task hmem)
        (fun c hc => ⟨task, hmem, c, hc, rfl⟩) hearliest task
      dsimp only [Option.map_some]
      rw [hlimit, hreq.horizonStart, earliestStart_renamed hgraph h.assignments]
      rcases hplace.or with ⟨e, hr, hr'⟩ | ⟨⟨p, person, i⟩, ⟨p', person', j⟩, hr, hr', hp, hperson, hidx⟩
      · rw [hr, hr']
        exact .error e
      · rw [hr, hr']
        have hp' : p' = p.renamed n := hp
        have hperson' : person'.id = n.person person.id := hperson
        dsimp only
        rw [hp', hperson']
        exact .ok ⟨hR.occupy p.allocs hidx, h.assignments.insert n.task_injective tid _⟩

theorem placeAll_renamed (hreq : n.Matches req req') (hgraph : EdgeGraph.Renames n.task graph graph')
    (hR : n.Indistinct cal req.horizonStart req.Candidate R) (h : n.States R st st') (order : List UUID) :
    SameOutcome (n.States R) (placeAll cal req graph order st) (placeAll cal req' graph' (order.map n.task) st') := by
  induction order generalizing st st' with
  | nil => exact .ok h
  | cons tid order ih =>
    simp only [List.map_cons, placeAll]
    rcases (placeTask_renamed hreq hgraph hR h tid).or with ⟨e, hr, hr'⟩ | ⟨s, s', hr, hr', hs⟩
    · rw [hr, hr']
      exact .error e
    · rw [hr, hr']
      exact ih hs

end Runs

/-- The two runs fail alike, or end in states that differ in names only. -/
theorem plan_runs (s : GreedySolver) {req req' : PlanRequest} {R : CapacityIndex → CapacityIndex → Prop}
    (hreq : n.Matches req req') (hR : n.Indistinct s.calendar req.horizonStart req.Candidate R)
    (hinit : R (.init req.people s.calendar req.dayOverrides req.existingAllocations)
      (.init req'.people s.calendar req'.dayOverrides req'.existingAllocations))
    (hsort : s.topologicalSort.run (buildDag req'.tasks req'.dependencies) =
      (s.topologicalSort.run (buildDag req.tasks req.dependencies)).map (List.map n.task)) :
    (∃ e, s.plan req = .error e ∧ s.plan req' = .error e) ∨
      ∃ order st st', s.plan req = .ok (planResult req order st) ∧
        s.plan req' = .ok (planResult req' (order.map n.task) st') ∧ n.States R st st' := by
  have hgraph : EdgeGraph.Renames n.task (buildDag req.tasks req.dependencies)
      (buildDag req'.tasks req'.dependencies) := by
    rw [hreq.tasks, hreq.dependencies]
    exact buildDag_renamed req.tasks req.dependencies
  have hstart : n.States R (startState s.calendar req) (startState s.calendar req') := by
    rw [startState, startState, hreq.tasks]
    exact foldl_pinTask_renamed hR ⟨hinit, OrdDict.Renames.empty⟩ req.tasks
  unfold GreedySolver.plan
  rw [hreq.guard]
  by_cases hguard : (!req.tasks.isEmpty && req.people.isEmpty) = true
  · rw [if_pos hguard, if_pos hguard]
    exact Or.inl ⟨_, rfl, rfl⟩
  · rw [if_neg hguard, if_neg hguard]
    dsimp only
    rw [hsort]
    cases s.topologicalSort.run (buildDag req.tasks req.dependencies) with
    | none => exact Or.inl ⟨_, rfl, rfl⟩
    | some order =>
      dsimp only [Option.map_some]
      rcases (placeAll_renamed hreq hgraph hR hstart order).or with ⟨e, hr, hr'⟩ | ⟨st, st', hr, hr', h⟩
      · rw [hr, hr']
        exact Or.inl ⟨e, rfl, rfl⟩
      · rw [hr, hr']
        exact Or.inr ⟨order, st, st', rfl, rfl, h⟩

end Planner
