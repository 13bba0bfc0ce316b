import Planner.PlacementLoop

/-! Every plan respects its dependencies: no movable task starts before the
days its links allow, whatever the placement modes of both ends. -/

namespace Planner

section EarliestStart

variable {cal : WorkingCalendar} {graph : Dag} {assignments : OrdDict UUID Assignment}

theorem le_raiseStart (tid : UUID) (est : Date) (dep : UUID) :
    est ≤ raiseStart cal graph assignments tid est dep := by
  unfold raiseStart
  split
  · dsimp only
    split
    · rename_i hlt
      exact hlt.le
    · exact le_rfl
  · exact le_rfl

theorem linkStart_le_raiseStart {tid est dep : UUID} {a : Assignment} {edge : Link}
    (ha : assignments.get? dep = some a) (he : graph.label? dep tid = some edge) :
    linkStart cal edge a ≤ raiseStart cal graph assignments tid est dep := by
  simp only [raiseStart, ha, he]
  split
  · exact le_rfl
  · rename_i hlt
    exact Nat.le_of_not_lt hlt

theorem le_foldl_raiseStart (tid : UUID) (deps : List UUID) (est : Date) :
    est ≤ deps.foldl (raiseStart cal graph assignments tid) est := by
  induction deps generalizing est with
  | nil => exact le_rfl
  | cons dep deps ih => exact (le_raiseStart tid est dep).trans (ih _)

theorem horizonStart_le_earliestStart (task : Task) (horizonStart : Date) :
    horizonStart ≤ earliestStart task graph assignments horizonStart cal :=
  le_foldl_raiseStart _ _ _

theorem linkStart_le_earliestStart {task : Task} {dep : UUID} {a : Assignment} {edge : Link}
    (ha : assignments.get? dep = some a) (he : graph.label? dep task.id = some edge)
    (horizonStart : Date) :
    linkStart cal edge a ≤ earliestStart task graph assignments horizonStart cal := by
  have hm : dep ∈ graph.predecessors task.id :=
    EdgeGraph.mem_predecessors.mpr (OrdDict.mem_keys.mpr (Option.isSome_iff_exists.mpr ⟨edge, he⟩))
  obtain ⟨pre, post, hs⟩ := List.append_of_mem hm
  rw [earliestStart, hs, List.foldl_append, List.foldl_cons]
  exact (linkStart_le_raiseStart ha he).trans (le_foldl_raiseStart _ _ _)

end EarliestStart

section BuildDag

theorem edges_foldl_addNode (ts : List Task) (g : Dag) :
    (ts.foldl (fun g t => g.addNode t.id) g).edges = g.edges := by
  induction ts generalizing g with
  | nil => rfl
  | cons t ts ih => rw [List.foldl_cons, ih, EdgeGraph.edges_addNode]

theorem edges_buildDag (tasks : List Task) (deps : List Dependency) :
    (buildDag tasks deps).edges = OrdDict.ofList (deps.map fun d =>
      ((d.dependsOnId, d.taskId), (⟨d.linkType, d.lagWorkingDays⟩ : Link))) := by
  have key : ∀ (g : Dag), (deps.foldl (fun g d =>
      g.addEdge d.dependsOnId d.taskId ⟨d.linkType, d.lagWorkingDays⟩) g).edges =
      (deps.map fun d => ((d.dependsOnId, d.taskId), (⟨d.linkType, d.lagWorkingDays⟩ : Link))).foldl
        (fun e x => e.insert x.1 x.2) g.edges := by
    induction deps with
    | nil => exact fun _ => rfl
    | cons d deps ih =>
      intro g
      simp only [List.foldl_cons, List.map_cons]
      rw [ih]
      rfl
  rw [buildDag, key, edges_foldl_addNode]
  rfl

theorem mem_nodes_foldl_addNode {ts : List Task} {g : Dag} {v : UUID} :
    v ∈ (ts.foldl (fun g t => g.addNode t.id) g).nodes ↔ v ∈ ts.map Task.id ∨ v ∈ g.nodes := by
  induction ts generalizing g with
  | nil => simp
  | cons t ts ih =>
    rw [List.foldl_cons, ih, EdgeGraph.mem_nodes_addNode, List.map_cons, List.mem_cons]
    tauto

theorem mem_nodes_buildDag {tasks : List Task} {deps : List Dependency} {v : UUID}
    (h : v ∈ tasks.map Task.id) : v ∈ (buildDag tasks deps).nodes := by
  have key : ∀ (g : Dag), v ∈ g.nodes → v ∈ (deps.foldl (fun g d =>
      g.addEdge d.dependsOnId d.taskId ⟨d.linkType, d.lagWorkingDays⟩) g).nodes := by
    induction deps with
    | nil => exact fun _ hv => hv
    | cons d deps ih => exact fun g hv => ih _ (EdgeGraph.mem_nodes_addEdge.mpr (by simp [hv]))
  exact key _ (mem_nodes_foldl_addNode.mpr (Or.inl h))

theorem label?_buildDag {tasks : List Task} {deps : List Dependency}
    (hpairs : (deps.map fun d => (d.taskId, d.dependsOnId)).Nodup) {d : Dependency}
    (hd : d ∈ deps) :
    (buildDag tasks deps).label? d.dependsOnId d.taskId =
      some ⟨d.linkType, d.lagWorkingDays⟩ := by
  rw [EdgeGraph.label?, edges_buildDag]
  apply OrdDict.get?_ofList_of_mem
  · have hswap := hpairs.map (f := Prod.swap) Prod.swap_injective
    simpa [Function.comp_def] using hswap
  · exact List.mem_map.mpr ⟨d, hd, rfl⟩

end BuildDag

/-- What a dependency demands of the start `s` of its successor when the
predecessor spans `[ps, pe]`. -/
def LinkRespected (cal : WorkingCalendar) (d : Dependency) (ps pe s : Date) : Prop :=
  match d.linkType with
  | .FS => (d.lagWorkingDays = 0 → cal.nextWorkingDay pe ≤ s) ∧
      ∀ n : ℕ+, d.lagWorkingDays = n → nthWorkingDay cal (cal.nextWorkingDay pe) n ≤ s
  | .SS => (d.lagWorkingDays = 0 → firstWorkingDay cal ps ≤ s) ∧
      ∀ n : ℕ+, d.lagWorkingDays = n → nthWorkingDay cal ps n ≤ s

theorem linkRespected_of_linkStart_le {cal : WorkingCalendar} {d : Dependency} {a : Assignment}
    {s : Date} (h : linkStart cal ⟨d.linkType, d.lagWorkingDays⟩ a ≤ s) :
    LinkRespected cal d a.startDate a.endDate s := by
  have hpos : ∀ (n : ℕ+) (base : Date) (hl : 0 < d.lagWorkingDays), d.lagWorkingDays = n →
      nthWorkingDay cal base ⟨d.lagWorkingDays.toNat, by omega⟩ = nthWorkingDay cal base n := by
    intro n base hl hn
    congr 1
    exact PNat.eq (by simp only [PNat.mk_coe]; omega)
  unfold LinkRespected
  cases hlink : d.linkType with
  | FS =>
    simp only [linkStart, hlink, if_true] at h
    refine ⟨fun h0 => ?_, fun n hn => ?_⟩
    · simpa [h0] using h
    · have hl : 0 < d.lagWorkingDays := by have := n.pos; omega
      simpa only [hl, dite_true, hpos n _ hl hn] using h
  | SS =>
    simp only [linkStart, hlink, reduceCtorEq, if_false] at h
    refine ⟨fun h0 => ?_, fun n hn => ?_⟩
    · simpa [h0] using h
    · have hl : 0 < d.lagWorkingDays := by have := n.pos; omega
      simpa only [hl, dite_true, hpos n _ hl hn] using h

/-- The start found at the turn of a task is the one in the result, and what was
filed before that turn stays. -/
theorem turn_start_le {cal : WorkingCalendar} {req : PlanRequest} {graph : Dag} {order : List UUID} {st : PlanState}
    (hids : (req.tasks.map Task.id).Nodup) (horder : order.Nodup)
    (hall : placeAll cal req graph order (startState cal req) = .ok st) {t : Task} (ht : t ∈ req.tasks)
    (hmem : t.id ∈ order) (hp : t.pinned? = none) {b : Assignment} (hb : b ∈ (planResult req order st).assignments)
    (hbt : b.taskId = t.id) :
    ∃ pre post mid, order = pre ++ t.id :: post ∧ placeAll cal req graph pre (startState cal req) = .ok mid ∧
      (∀ k a, mid.assignments.get? k = some a → st.assignments.get? k = some a) ∧
      earliestStart t graph mid.assignments req.horizonStart cal ≤ b.startDate := by
  obtain ⟨pre, post, mid, person, p, idx, hsplit, hpre, hpl, -, hpost⟩ := turn_of_task hids horder hall ht hmem hp
  have hturn := placeAll_keeps (OrdDict.get?_insert_self _ _ _) hpost
  have hfiled := filed_of_mem_planResult hall hb
  rw [hbt, hturn] at hfiled
  obtain rfl := Option.some.inj hfiled
  refine ⟨pre, post, mid, hsplit, hpre, fun k a hk => ?_, (le_firstWorkingDay _).trans hpl.start_ge⟩
  rw [hsplit] at hall
  obtain ⟨mid', hpre', hrest⟩ := placeAll_append hall
  obtain rfl := Except.ok.inj (hpre.symm.trans hpre')
  exact placeAll_keeps hk hrest

/-- The dependency law: in a plan of a request with unique task ids, one edge
per pair and all edges between its tasks, every movable task starts within its
horizon and no earlier than each of its links allows. -/
theorem plan_respects_dependencies (s : GreedySolver) (req : PlanRequest) (res : PlanResult)
    (hids : (req.tasks.map Task.id).Nodup)
    (hpairs : (req.dependencies.map fun d => (d.taskId, d.dependsOnId)).Nodup)
    (hends : ∀ d ∈ req.dependencies,
      d.taskId ∈ req.tasks.map Task.id ∧ d.dependsOnId ∈ req.tasks.map Task.id)
    (hplan : s.plan req = .ok res) :
    (∀ d ∈ req.dependencies, ∀ t ∈ req.tasks, t.id = d.taskId → t.pinned? = none →
      ∀ a ∈ res.assignments, a.taskId = d.dependsOnId →
      ∀ b ∈ res.assignments, b.taskId = d.taskId →
        LinkRespected s.calendar d a.startDate a.endDate b.startDate) ∧
    ∀ t ∈ req.tasks, t.pinned? = none →
      ∀ b ∈ res.assignments, b.taskId = t.id → req.horizonStart ≤ b.startDate := by
  obtain ⟨order, st, hrun, hall, rfl⟩ := plan_ok hplan
  have htopo := s.topologicalSort.sound _ _ hrun
  have hmem : ∀ t ∈ req.tasks, t.id ∈ order := fun t ht =>
    (htopo.mem_iff _).mpr (mem_nodes_buildDag (List.mem_map_of_mem ht))
  refine ⟨fun d hd t ht hid hp a ha had b hb hbd => ?_, fun t ht hp b hb hbt => ?_⟩
  · obtain ⟨pre, post, mid, hsplit, hpre, hkeep, hle⟩ :=
      turn_start_le hids htopo.nodup hall ht (hmem t ht) hp hb (hbd.trans hid.symm)
    have hlabel : (buildDag req.tasks req.dependencies).label? d.dependsOnId d.taskId =
        some ⟨d.linkType, d.lagWorkingDays⟩ := label?_buildDag hpairs hd
    have hedge : (buildDag req.tasks req.dependencies).Edge d.dependsOnId t.id := by
      rw [hid]
      exact OrdDict.mem_keys.mpr (Option.isSome_iff_exists.mpr ⟨_, hlabel⟩)
    -- the predecessor's turn came before
    have hbefore := htopo.pred_mem pre t.id post hsplit _ hedge
    obtain ⟨u, hu, hud⟩ := List.mem_map.mp (hends d hd).2
    have hk := placeAll_places hbefore hpre (hud ▸ tasksById_get? hids hu)
    obtain ⟨a', ha'⟩ := Option.isSome_iff_exists.mp (OrdDict.mem_keys.mp hk)
    have hfiled := filed_of_mem_planResult hall ha
    rw [had, hkeep _ _ ha'] at hfiled
    obtain rfl := Option.some.inj hfiled
    refine linkRespected_of_linkStart_le (le_trans ?_ hle)
    exact linkStart_le_earliestStart ha' (hid ▸ hlabel) _
  · obtain ⟨pre, post, mid, -, -, -, hle⟩ := turn_start_le hids htopo.nodup hall ht (hmem t ht) hp hb hbt
    exact (horizonStart_le_earliestStart t req.horizonStart).trans hle

/-- A split draft, and a paired review two working days after it. -/
def reviewRequest : PlanRequest where
  people := [{ id := 1, name := "Anna" }, { id := 2, name := "Boris" }]
  tasks := [
    { id := 10, name := "Draft", durationHours := 20, allowedPersonIds := [1], isSplittable := true },
    { id := 11, name := "Review", durationHours := 8, allowedPersonIds := [1, 2], pairMode := .required }]
  dependencies := [⟨11, 10, .FS, 2⟩]
  horizonStart := 1

theorem plan_respects_dependencies_review :
    ∃ res, GreedySolver.onWeekdays.plan reviewRequest = .ok res ∧
    (∀ d ∈ reviewRequest.dependencies, ∀ t ∈ reviewRequest.tasks, t.id = d.taskId →
      t.pinned? = none → ∀ a ∈ res.assignments, a.taskId = d.dependsOnId →
      ∀ b ∈ res.assignments, b.taskId = d.taskId →
        LinkRespected GreedySolver.onWeekdays.calendar d a.startDate a.endDate b.startDate) ∧
    ∀ t ∈ reviewRequest.tasks, t.pinned? = none →
      ∀ b ∈ res.assignments, b.taskId = t.id → reviewRequest.horizonStart ≤ b.startDate :=
  ⟨_, rfl, plan_respects_dependencies GreedySolver.onWeekdays reviewRequest _ (by decide) (by decide)
    (by decide) rfl⟩

end Planner
