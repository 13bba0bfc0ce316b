import Planner.PinnedHours

/-! The rows of the dependencies matter through the order that the topological
sort gives to the tasks, and through nothing else. The sort frees the dependents
of a node in the order of their rows. -/

namespace Planner

section Graph

variable {tasks : List Task} {deps deps' : List Dependency}

/-- At most one edge for a pair. -/
def PairsOnce (deps : List Dependency) : Prop := (deps.map fun d => (d.taskId, d.dependsOnId)).Nodup

/-- The rows may move as long as each node has its dependents in order and the
nodes that are no tasks are named in order. -/
structure RowsMoved (tasks : List Task) (deps deps' : List Dependency) : Prop where
  dependents : ∀ u, (deps'.filter fun d => d.dependsOnId = u).map Dependency.taskId =
    (deps.filter fun d => d.dependsOnId = u).map Dependency.taskId
  nodes : (buildDag tasks deps').nodes = (buildDag tasks deps).nodes

theorem nodup_edges (h : PairsOnce deps) :
    ((deps.map fun d => ((d.dependsOnId, d.taskId), (⟨d.linkType, d.lagWorkingDays⟩ : Link))).map Prod.fst).Nodup := by
  have hswap := List.Nodup.map (f := Prod.swap) Prod.swap_injective h
  simpa [Function.comp_def] using hswap

theorem get?_edges (h : PairsOnce deps) (hperm : deps'.Perm deps) (k : UUID × UUID) :
    (buildDag tasks deps').edges.get? k = (buildDag tasks deps).edges.get? k := by
  rw [edges_buildDag, edges_buildDag]
  exact OrdDict.get?_ofList_perm (nodup_edges h) (hperm.map _) k

theorem predecessors_perm (h : PairsOnce deps) (hperm : deps'.Perm deps) (v : UUID) :
    ((buildDag tasks deps').predecessors v).Perm ((buildDag tasks deps).predecessors v) :=
  (((OrdDict.entries_perm (get?_edges h hperm)).map Prod.fst).filter _).map _

theorem keys_edges (h : PairsOnce deps) :
    (buildDag tasks deps).edges.keys = deps.map fun d => (d.dependsOnId, d.taskId) := by
  rw [edges_buildDag, OrdDict.keys, OrdDict.ofList, OrdDict.entries_insertAll _ _ (nodup_edges h) (by simp)]
  simp [OrdDict.empty]

theorem successors_eq (h : PairsOnce deps) (u : UUID) : (buildDag tasks deps).successors u =
    (deps.filter fun d => d.dependsOnId = u).map Dependency.taskId := by
  rw [EdgeGraph.successors, keys_edges h, List.filter_map, List.map_map]
  rfl

/-- Moved so, the rows leave the sort as it was. -/
theorem topologicalSort_moved (h : PairsOnce deps) (hperm : deps'.Perm deps) (hmoved : RowsMoved tasks deps deps') :
    (buildDag tasks deps').topologicalSort = (buildDag tasks deps).topologicalSort := by
  have h' : PairsOnce deps' := (hperm.map _).nodup_iff.mpr h
  refine EdgeGraph.topologicalSort_congr hmoved.nodes fun u => ?_
  rw [successors_eq h', successors_eq h, hmoved.dependents]

end Graph

section Start

variable {cal : WorkingCalendar} {graph graph' : Dag} {assignments : OrdDict UUID Assignment}

/-- The day that one predecessor demands. -/
def demandedStart (cal : WorkingCalendar) (graph : Dag) (assignments : OrdDict UUID Assignment) (tid dep : UUID) : Date :=
  match assignments.get? dep, graph.label? dep tid with
  | some a, some edge => linkStart cal edge a
  | _, _ => 0

theorem raiseStart_eq_max (tid : UUID) (est : Date) (dep : UUID) : raiseStart cal graph assignments tid est dep =
    max est (demandedStart cal graph assignments tid dep) := by
  unfold raiseStart demandedStart
  cases assignments.get? dep with
  | none => exact (max_eq_left (Nat.zero_le _)).symm
  | some a =>
    cases graph.label? dep tid with
    | none => exact (max_eq_left (Nat.zero_le _)).symm
    | some edge =>
      dsimp only
      split
      · rename_i hlt
        exact (max_eq_right hlt.le).symm
      · rename_i hge
        exact (max_eq_left (not_lt.mp hge)).symm

/-- The earliest start is a maximum over the predecessors, in whatever order. -/
theorem earliestStart_congr {task : Task} (hlabel : ∀ u v, graph'.label? u v = graph.label? u v)
    (hpred : (graph'.predecessors task.id).Perm (graph.predecessors task.id)) (horizonStart : Date) :
    earliestStart task graph' assignments horizonStart cal = earliestStart task graph assignments horizonStart cal := by
  have hraise : raiseStart cal graph' assignments task.id = raiseStart cal graph assignments task.id := by
    funext est dep
    simp only [raiseStart, hlabel]
  have hcomm : RightCommutative (raiseStart cal graph assignments task.id) := by
    refine ⟨fun est u v => ?_⟩
    simp only [raiseStart_eq_max]
    exact max_right_comm _ _ _
  rw [earliestStart, earliestStart, hraise]
  exact hpred.foldl_eq horizonStart

end Start

section Runs

variable {cal : WorkingCalendar} {req : PlanRequest} {deps : List Dependency}

theorem placeTask_moved (h : PairsOnce req.dependencies) (hperm : deps.Perm req.dependencies) (st : PlanState)
    (tid : UUID) : placeTask cal { req with dependencies := deps } (buildDag req.tasks deps) st tid =
      placeTask cal req (buildDag req.tasks req.dependencies) st tid := by
  have hstart : ∀ task : Task, earliestStart task (buildDag req.tasks deps) st.assignments req.horizonStart cal =
      earliestStart task (buildDag req.tasks req.dependencies) st.assignments req.horizonStart cal := fun task =>
    earliestStart_congr (fun u v => get?_edges h hperm (u, v)) (predecessors_perm h hperm task.id) req.horizonStart
  unfold placeTask
  have htasks : tasksById { req with dependencies := deps } = tasksById req := rfl
  have hallowed : ∀ t, allowedPeople { req with dependencies := deps } t = allowedPeople req t := fun _ => rfl
  have hlimit : horizonLimit { req with dependencies := deps } = horizonLimit req := rfl
  simp only [htasks, hallowed, hlimit, hstart]

theorem placeAll_moved (h : PairsOnce req.dependencies) (hperm : deps.Perm req.dependencies) (order : List UUID)
    (st : PlanState) : placeAll cal { req with dependencies := deps } (buildDag req.tasks deps) order st =
      placeAll cal req (buildDag req.tasks req.dependencies) order st := by
  induction order generalizing st with
  | nil => rfl
  | cons tid order ih =>
    simp only [placeAll, placeTask_moved h hperm]
    split
    · rfl
    · exact ih _

variable {graph : Dag} {order : List UUID} {st : PlanState}

/-- Nodes that are no tasks are passed over. -/
theorem placeAll_tasks (order : List UUID) (st : PlanState) : placeAll cal req graph order st =
    placeAll cal req graph (order.filter fun v => v ∈ req.tasks.map Task.id) st := by
  induction order generalizing st with
  | nil => rfl
  | cons tid order ih =>
    by_cases hm : tid ∈ req.tasks.map Task.id
    · rw [List.filter_cons_of_pos (by simpa using hm)]
      simp only [placeAll]
      split
      · rfl
      · exact ih _
    · have hnone : (tasksById req).get? tid = none :=
        OrdDict.get?_eq_none_iff.mpr fun hk => hm (keys_tasksById.mp hk)
      have hskip : placeTask cal req graph st tid = .ok st := by
        simp only [placeTask, hnone]
        split <;> rfl
      rw [List.filter_cons_of_neg (by simpa using hm)]
      simp only [placeAll, hskip]
      exact ih st

theorem planResult_tasks (h : placeAll cal req graph order (startState cal req) = .ok st) :
    planResult req order st = planResult req (order.filter fun v => v ∈ req.tasks.map Task.id) st := by
  have hfiled : order.filterMap st.assignments.get? =
      (order.filter fun v => v ∈ req.tasks.map Task.id).filterMap st.assignments.get? := by
    rw [List.filterMap_filter]
    refine List.filterMap_congr fun v _ => ?_
    split
    · rfl
    · rename_i hm
      refine OrdDict.get?_eq_none_iff.mpr fun hk => hm ?_
      simpa using placed_mem h hk
  simp only [planResult, hfiled]

end Runs

/-- The tasks of the request in the order in which they are placed. -/
def GreedySolver.taskOrder (s : GreedySolver) (req : PlanRequest) : Option (List UUID) :=
  (s.topologicalSort.run (buildDag req.tasks req.dependencies)).map fun order =>
    order.filter fun v => v ∈ req.tasks.map Task.id

theorem plan_of_taskOrder {s : GreedySolver} {req : PlanRequest} {deps : List Dependency}
    (h : PairsOnce req.dependencies) (hperm : deps.Perm req.dependencies)
    (hsame : s.taskOrder { req with dependencies := deps } = s.taskOrder req) :
    s.plan { req with dependencies := deps } = s.plan req := by
  have hstart : startState s.calendar { req with dependencies := deps } = startState s.calendar req := rfl
  have hresult : ∀ order st, planResult { req with dependencies := deps } order st = planResult req order st :=
    fun _ _ => rfl
  unfold GreedySolver.taskOrder at hsame
  unfold GreedySolver.plan
  dsimp only at hsame ⊢
  split
  · rfl
  · cases hrun : s.topologicalSort.run (buildDag req.tasks req.dependencies) with
    | none =>
      rw [hrun, Option.map_none, Option.map_eq_none_iff] at hsame
      rw [hsame]
    | some order =>
      rw [hrun, Option.map_some, Option.map_eq_some_iff] at hsame
      obtain ⟨order', hrun', hfilter⟩ := hsame
      rw [hrun']
      dsimp only
      rw [placeAll_moved h hperm, hstart, placeAll_tasks order', hfilter, ← placeAll_tasks order]
      cases hall : placeAll s.calendar req (buildDag req.tasks req.dependencies) order (startState s.calendar req) with
      | error e => rfl
      | ok st =>
        have hall' := hall
        rw [placeAll_tasks, ← hfilter, ← placeAll_tasks] at hall'
        dsimp only
        rw [hresult, planResult_tasks hall', planResult_tasks hall, hfilter]

/-- The plan is the same for rows in another order if they leave the tasks in
order; by generations they do if every node keeps its dependents in order. -/
theorem plan_dependency_order (s : GreedySolver) (req : PlanRequest) (deps : List Dependency)
    (h : PairsOnce req.dependencies) (hperm : deps.Perm req.dependencies) :
    (s.taskOrder { req with dependencies := deps } = s.taskOrder req →
      s.plan { req with dependencies := deps } = s.plan req) ∧
      (s.topologicalSort = generationSort → RowsMoved req.tasks req.dependencies deps →
        s.plan { req with dependencies := deps } = s.plan req) := by
  refine ⟨plan_of_taskOrder h hperm, fun hsort hmoved => plan_of_taskOrder h hperm ?_⟩
  unfold GreedySolver.taskOrder
  rw [hsort]
  exact congrArg _ (topologicalSort_moved h hperm hmoved)

/-- Anna's titles wait for the shooting, and her sound for one of the two. -/
def soundAfter (dep : UUID) : PlanRequest where
  people := [⟨1, "Анна", 8⟩]
  tasks := [{ id := 7, name := "Съёмка", durationHours := 8, allowedPersonIds := [1] },
    { id := 8, name := "Титры", durationHours := 8, allowedPersonIds := [1] },
    { id := 9, name := "Звук", durationHours := 8, allowedPersonIds := [1] }]
  dependencies := [⟨8, 7, .FS, 0⟩, ⟨9, dep, .FS, 0⟩]
  horizonStart := Date.ofYmd 2026 6 1

theorem plan_dependency_order_chain : GreedySolver.onWeekdays.plan { soundAfter 8 with
      dependencies := (soundAfter 8).dependencies.reverse } = GreedySolver.onWeekdays.plan (soundAfter 8) := by
  have hmoved : RowsMoved (soundAfter 8).tasks (soundAfter 8).dependencies (soundAfter 8).dependencies.reverse := by
    refine ⟨fun u => ?_, by decide⟩
    rw [List.filter_reverse]
    by_cases h : u = 7
    · subst h
      rfl
    · by_cases h' : u = 8
      · subst h'
        rfl
      · have hnone : (soundAfter 8).dependencies.filter (fun d => d.dependsOnId = u) = [] := by
          simp [soundAfter, Ne.symm h, Ne.symm h']
        rw [hnone]
        rfl
  exact (plan_dependency_order .onWeekdays (soundAfter 8) _ (by unfold PairsOnce; decide) (List.reverse_perm _)).2
    rfl hmoved

/-- Both wait for the shooting: whose row comes first is on Tuesday. -/
theorem dependents_swapped : PairsOnce (soundAfter 7).dependencies ∧
    (soundAfter 7).dependencies.reverse.Perm (soundAfter 7).dependencies ∧
    ∃ res res', GreedySolver.onWeekdays.plan (soundAfter 7) = .ok res ∧
      GreedySolver.onWeekdays.plan { soundAfter 7 with
        dependencies := (soundAfter 7).dependencies.reverse } = .ok res' ∧
      ∃ a ∈ res.assignments, ∃ b ∈ res'.assignments, a.taskId = b.taskId ∧ a.startDate ≠ b.startDate := by
  refine ⟨by unfold PairsOnce; decide, List.reverse_perm _, _, _, rfl, rfl,
    ⟨8, 1, Date.ofYmd 2026 6 2, Date.ofYmd 2026 6 2, [⟨1, Date.ofYmd 2026 6 2, 8⟩]⟩, ?_,
    ⟨8, 1, Date.ofYmd 2026 6 3, Date.ofYmd 2026 6 3, [⟨1, Date.ofYmd 2026 6 3, 8⟩]⟩, ?_, rfl, by decide⟩
  · decide +kernel
  · decide +kernel

end Planner
