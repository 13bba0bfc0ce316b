import Planner.CriticalPath
import Planner.DependencyLaw
import Planner.Lib.LongestPath
import Planner.Workdays

/-! Two measures of the dependency network in working days: the one of the
critical path, and the one the scheduler's own rules give when everybody is free. -/

namespace Planner

/-- Whole days of `hours` at `cap` a day. -/
def daysAt (hours cap : Int) : Nat := (max 1 (-(-hours / cap))).toNat

theorem daysAt_pos (hours cap : Int) : 0 < daysAt hours cap := by
  unfold daysAt
  omega

/-- The fewest working days a task takes with one of the people it is bound to. -/
def fewestDays (task : Task) (allowed : List Person) : Nat :=
  if task.durationIsWindow then windowSpan task
  else if task.pairMode = .required ∧ 2 ≤ allowed.length then 1
  else if task.isSplittable then
    (allowed.map fun p => daysAt task.durationHours p.capacityH).min?.getD 1
  else 1

theorem fewestDays_pos (task : Task) (allowed : List Person) : 0 < fewestDays task allowed := by
  unfold fewestDays
  split
  · exact (windowSpan task).pos
  · split
    · exact Nat.one_pos
    · split
      · cases h : (allowed.map fun p => daysAt task.durationHours p.capacityH).min? with
        | none => exact Nat.one_pos
        | some n =>
          obtain ⟨p, -, hp⟩ := List.mem_map.mp (List.min?_eq_some_iff.mp h).1
          exact hp ▸ daysAt_pos _ _
      · exact Nat.one_pos

/-- Working days that a link adds to the earliest start of its successor. -/
def Link.wait (e : Link) : Nat := (e.lag - 1).toNat

/-- The dependencies stay within the request. -/
def PlanRequest.Closed (req : PlanRequest) : Prop :=
  ∀ d ∈ req.dependencies, d.taskId ∈ req.tasks.map Task.id ∧ d.dependsOnId ∈ req.tasks.map Task.id

/-- Tasks that depend on one another in a row. -/
def PlanRequest.IsPath (req : PlanRequest) (path : List UUID) : Prop :=
  path.IsChain (fun u t => u ∈ (buildDag req.tasks req.dependencies).predecessors t) ∧
    ∀ t ∈ path, t ∈ req.tasks.map Task.id

def chainDays (req : PlanRequest) (tid : UUID) : Nat :=
  ((tasksById req).get? tid).elim 0 fun task => durationDays task (peopleById req)

def networkDays (req : PlanRequest) (tid : UUID) : Nat :=
  ((tasksById req).get? tid).elim 0 fun task => fewestDays task (allowedPeople req task)

def networkCost (req : PlanRequest) (graph : Dag) (u t : UUID) : Nat :=
  match graph.label? u t with
  | some e => (if e.linkType = .FS then networkDays req u else 0) + e.wait
  | none => 0

/-- Working days of a path as the critical path counts them: one task after the other. -/
def PlanRequest.chainLength (req : PlanRequest) : List UUID → Nat :=
  LongestPath.weight (fun u _ => chainDays req u) (chainDays req)

/-- Working days of a path as the scheduler counts them: by link and lag, each
task as fast as anyone allowed can be. -/
def PlanRequest.networkLength (req : PlanRequest) : List UUID → Nat :=
  LongestPath.weight (networkCost req (buildDag req.tasks req.dependencies)) (networkDays req)

def chainVisit (req : PlanRequest) (graph : Dag) (tid : UUID) (finish : UUID → Nat) : Nat :=
  ForwardPass.peak finish (graph.predecessors tid) + chainDays req tid

section Passes

variable {req : PlanRequest} {graph : Dag} {order : List UUID}

theorem ordered_of_topological (h : graph.IsTopologicalOrder order) :
    LongestPath.Ordered graph.predecessors order :=
  ⟨h.nodup, fun pre t post he u hu => h.pred_mem pre t post he u (EdgeGraph.mem_predecessors.mp hu)⟩

/-- A finish of the loop is the longest way to the task, and the task. -/
theorem chainVisit_finish (htopo : graph.IsTopologicalOrder order) : ∀ t ∈ order,
    ForwardPass.run (chainVisit req graph) order (fun _ => 0) t =
      LongestPath.starts graph.predecessors (fun u _ => chainDays req u) order t + chainDays req t := by
  have ho := ordered_of_topological htopo
  refine ForwardPass.induction fun pre t post he ih => ?_
  have ht : t ∈ order := by simp [he]
  have hlocal : ForwardPass.Local (chainVisit req graph) order := fun pre t post he m m' h => by
    rw [chainVisit, ForwardPass.peak_congr fun u hu => h u (ho.before pre t post he u hu)]
    rfl
  rw [ForwardPass.run_eq ho.nodup hlocal _ ht, LongestPath.starts_eq ho ht, chainVisit,
    ForwardPass.peak_congr fun u hu => ih u (ho.before pre t post he u hu)]

/-- The loop is a forward pass with a running maximum. -/
theorem longestChain_ok (efDays : OrdDict UUID Nat) (maxEf : Nat) {finish : UUID → Nat}
    (hef : ∀ u, efDays.getD u 0 = finish u) (hnodup : order.Nodup)
    (htasks : ∀ t ∈ order, t ∈ (tasksById req).keys) :
    longestChain graph (tasksById req) (peopleById req) order efDays maxEf =
      .ok (max maxEf (ForwardPass.peak (ForwardPass.run (chainVisit req graph) order finish) order)) := by
  induction order generalizing efDays maxEf finish with
  | nil => simp [longestChain]
  | cons t rest ih =>
    obtain ⟨task, ht⟩ := Option.isSome_iff_exists.mp (OrdDict.mem_keys.mp (htasks t List.mem_cons_self))
    obtain ⟨hnot, hrest⟩ := List.nodup_cons.mp hnodup
    have hbase : ((graph.predecessors t).map fun p => efDays.getD p 0).foldr max 0 =
        ForwardPass.peak finish (graph.predecessors t) := by
      simp only [hef]
      rfl
    have hvisit : chainVisit req graph t finish =
        ForwardPass.peak finish (graph.predecessors t) + durationDays task (peopleById req) := by
      simp only [chainVisit, chainDays, ht, Option.elim_some]
    simp only [longestChain, ht, hbase, ← hvisit]
    rw [ih _ _ (fun u => ?_) hrest fun u hu => htasks u (List.mem_cons_of_mem _ hu)]
    · rw [ForwardPass.peak_cons, ForwardPass.run, ForwardPass.run_of_not_mem hnot, Function.update_self,
        max_assoc]
    · rw [OrdDict.getD, OrdDict.get?_insert, Function.update_apply]
      split
      · rfl
      · exact hef u

theorem longestChain_missing (efDays : OrdDict UUID Nat) (maxEf : Nat) {t : UUID} (ht : t ∈ order)
    (hmissing : t ∉ (tasksById req).keys) :
    ∃ e, longestChain graph (tasksById req) (peopleById req) order efDays maxEf = .error e := by
  induction order generalizing efDays maxEf with
  | nil => cases ht
  | cons u rest ih =>
    cases hu : (tasksById req).get? u with
    | none => exact ⟨.missingTask, by simp only [longestChain, hu]⟩
    | some task =>
      simp only [longestChain, hu]
      rcases List.mem_cons.mp ht with rfl | ht
      · exact absurd (OrdDict.mem_keys.mpr (by simp [hu])) hmissing
      · exact ih _ _ ht

theorem keys_tasksById {t : UUID} : t ∈ (tasksById req).keys ↔ t ∈ req.tasks.map Task.id := by
  rw [tasksById, OrdDict.mem_keys_ofList, List.map_map]
  rfl

theorem mem_nodes_buildDag_iff {v : UUID} : v ∈ (buildDag req.tasks req.dependencies).nodes ↔
    v ∈ req.tasks.map Task.id ∨ ∃ d ∈ req.dependencies, v = d.taskId ∨ v = d.dependsOnId := by
  have key : ∀ (deps : List Dependency) (g : Dag), v ∈ (deps.foldl (fun g d =>
      g.addEdge d.dependsOnId d.taskId ⟨d.linkType, d.lagWorkingDays⟩) g).nodes ↔
      v ∈ g.nodes ∨ ∃ d ∈ deps, v = d.taskId ∨ v = d.dependsOnId := by
    intro deps
    induction deps with
    | nil => simp
    | cons d deps ih =>
      intro g
      rw [List.foldl_cons, ih, EdgeGraph.mem_nodes_addEdge, List.exists_mem_cons_iff]
      simp only [or_assoc, or_left_comm]
  rw [buildDag, key, mem_nodes_foldl_addNode]
  simp [EdgeGraph.empty]

theorem mem_keys_of_order (hclosed : req.Closed)
    (htopo : (buildDag req.tasks req.dependencies).IsTopologicalOrder order) :
    ∀ t ∈ order, t ∈ (tasksById req).keys := by
  intro t ht
  rw [keys_tasksById]
  rcases mem_nodes_buildDag_iff.mp ((htopo.mem_iff t).mp ht) with h | ⟨d, hd, rfl | rfl⟩
  · exact h
  · exact (hclosed d hd).1
  · exact (hclosed d hd).2

end Passes

namespace GreedySolver

variable {s : GreedySolver} {req : PlanRequest} {order : List UUID}

/-- The longest path, as days from the start. -/
theorem criticalPathEnd_ok (hclosed : req.Closed) (start : Date)
    (hrun : s.topologicalSort.run (buildDag req.tasks req.dependencies) = some order) :
    s.criticalPathEnd req start = .ok (workday s.calendar start (ForwardPass.peak (fun t =>
      LongestPath.starts (buildDag req.tasks req.dependencies).predecessors (fun u _ => chainDays req u)
        order t + chainDays req t) order - 1)) := by
  have htopo := s.topologicalSort.sound _ _ hrun
  have htasks := mem_keys_of_order hclosed htopo
  have hzero : ∀ u, (OrdDict.empty : OrdDict UUID Nat).getD u 0 = 0 := fun _ => rfl
  have hchain := @longestChain_ok req (buildDag req.tasks req.dependencies) order .empty 0 (fun _ => 0)
    hzero htopo.nodup htasks
  simp only [criticalPathEnd, hrun, hchain, Except.map, Nat.zero_max,
    ForwardPass.peak_congr (chainVisit_finish htopo)]
  split
  · rfl
  · rename_i h
    rw [Nat.eq_zero_of_not_pos h]
    rfl

/-- A dependency on a stranger stops the critical path. -/
theorem closed_of_criticalPathEnd {start e : Date} (h : s.criticalPathEnd req start = .ok e) : req.Closed := by
  unfold criticalPathEnd at h
  dsimp only at h
  split at h
  · cases h
  · rename_i order hrun
    have htopo := s.topologicalSort.sound _ _ hrun
    have hmem : ∀ v ∈ (buildDag req.tasks req.dependencies).nodes, v ∈ req.tasks.map Task.id := by
      intro v hv
      by_contra hno
      obtain ⟨err, herr⟩ := @longestChain_missing req (buildDag req.tasks req.dependencies) order .empty 0 v
        ((htopo.mem_iff v).mpr hv) fun hk => hno (keys_tasksById.mp hk)
      rw [herr] at h
      cases h
    intro d hd
    exact ⟨hmem _ (mem_nodes_buildDag_iff.mpr (Or.inr ⟨d, hd, Or.inl rfl⟩)),
      hmem _ (mem_nodes_buildDag_iff.mpr (Or.inr ⟨d, hd, Or.inr rfl⟩))⟩

end GreedySolver

end Planner
