import Mathlib.Logic.Equiv.Basic
import Planner.NamedRuns

/-! What the plan does not depend on: the values of the ids, and every hour
that is not a free hour of a candidate on a working day of the horizon. -/

namespace Planner

/-- The order of the sort is decided by the order in which nodes and edges were
inserted, never by the values of the nodes. -/
def TopologicalSort.ByInsertion (sort : TopologicalSort) : Prop :=
  ∀ f : UUID → UUID, f.Injective → ∀ g g' : Dag, EdgeGraph.Renames f g g' →
    sort.run g' = (sort.run g).map (List.map f)

theorem generationSort_byInsertion : generationSort.ByInsertion := fun _ hf _ _ h => h.topologicalSort hf

/-- The books of one run under the names of the other. -/
structure Naming.SameBooks (n : Naming) (idx idx' : CapacityIndex) : Prop where
  base : ∀ p d, idx'.baseCapacity (n.person p) d = idx.baseCapacity p d
  used : OrdDict.Renames (Prod.map n.person id) id idx.used idx'.used

namespace Naming.SameBooks

open CapacityIndex

variable {n : Naming} {idx idx' : CapacityIndex}

theorem injective (n : Naming) : (Prod.map n.person (id : Date → Date)).Injective :=
  n.person_injective.prodMap Function.injective_id

theorem getD {used used' : OrdDict (UUID × Date) Int} (h : OrdDict.Renames (Prod.map n.person id) id used used')
    (p : UUID) (d : Date) : used'.getD (n.person p, d) 0 = used.getD (p, d) 0 :=
  OrdDict.Renames.getD h (injective n) (p, d) 0

theorem addHours {used used' : OrdDict (UUID × Date) Int}
    (h : OrdDict.Renames (Prod.map n.person id) id used used') (a : DayAllocation) :
    OrdDict.Renames (Prod.map n.person id) id (CapacityIndex.addHours used a)
      (CapacityIndex.addHours used' (a.renamed n)) := by
  have hget : used'.getD ((a.renamed n).personId, (a.renamed n).day) 0 = used.getD (a.personId, a.day) 0 :=
    getD h a.personId a.day
  rw [CapacityIndex.addHours, CapacityIndex.addHours, hget]
  exact OrdDict.Renames.insert h (injective n) (a.personId, a.day) _

theorem foldl_addHours (as : List DayAllocation) {used used' : OrdDict (UUID × Date) Int}
    (h : OrdDict.Renames (Prod.map n.person id) id used used') :
    OrdDict.Renames (Prod.map n.person id) id (as.foldl CapacityIndex.addHours used)
      ((as.map (DayAllocation.renamed n)).foldl CapacityIndex.addHours used') := by
  induction as generalizing used used' with
  | nil => exact h
  | cons a as ih => exact ih (addHours h a)

theorem touch (h : n.SameBooks idx idx') (p : UUID) (d : Date) :
    n.SameBooks (idx.touch p d) (idx'.touch (n.person p) d) := by
  have hcontains : idx'.used.contains (n.person p, d) = idx.used.contains (p, d) :=
    h.used.contains (injective n) (p, d)
  unfold CapacityIndex.touch
  rw [hcontains]
  split
  · exact h
  · exact ⟨h.base, h.used.insert (injective n) (p, d) 0⟩

/-- Nothing the solver looks at tells the two runs apart. -/
theorem indistinct (n : Naming) (cal : WorkingCalendar) (start : Date) (known : UUID → Prop) :
    n.Indistinct cal start known n.SameBooks where
  free {idx idx' p d} h _ _ _ := by
    rw [CapacityIndex.free, CapacityIndex.free, h.base, usedOn, usedOn, getD h.used]
  touch {idx idx' p} d h _ := h.touch p d
  occupy as h := ⟨h.base, foldl_addHours as h.used⟩

theorem init (n : Naming) (cal : WorkingCalendar) (req : PlanRequest) :
    n.SameBooks (.init req.people cal req.dayOverrides req.existingAllocations)
      (.init (req.renamed n).people cal (req.renamed n).dayOverrides (req.renamed n).existingAllocations) := by
  have hcaps : (req.renamed n).people.map (fun p => (p.id, p.capacityH)) =
      (req.people.map fun p => (p.id, p.capacityH)).map (Prod.map n.person id) := by
    simp only [PlanRequest.renamed, List.map_map]
    rfl
  have hrows : (req.renamed n).dayOverrides.map (fun o => ((o.personId, o.day), o.capacityH)) =
      (req.dayOverrides.map fun o => ((o.personId, o.day), o.capacityH)).map
        (Prod.map (Prod.map n.person id) id) := by
    simp only [PlanRequest.renamed, List.map_map]
    rfl
  refine ⟨fun p d => ?_, foldl_addHours req.existingAllocations OrdDict.Renames.empty⟩
  have hcap := OrdDict.Renames.getD (OrdDict.Renames.ofList (g := id) n.person_injective
    (req.people.map fun p => (p.id, p.capacityH))) n.person_injective p 0
  have hrow := OrdDict.Renames.get? (OrdDict.Renames.ofList (g := id) (injective n)
    (req.dayOverrides.map fun o => ((o.personId, o.day), o.capacityH))) (injective n) (p, d)
  rw [Option.map_id, id] at hrow
  simp only [id_eq] at hcap
  change capacityOn _ cal _ (n.person p) d = capacityOn _ cal _ p d
  unfold capacityOn
  rw [hcaps, hrows]
  dsimp only
  rw [show (n.person p, d) = Prod.map n.person id (p, d) from rfl, hrow, hcap]

end Naming.SameBooks

section Result

variable {n : Naming} {req : PlanRequest}

theorem overloadFlags_renamed {idx idx' : CapacityIndex} (h : n.SameBooks idx idx') :
    overloadFlags idx' = (overloadFlags idx).map (RiskFlag.renamed n) := by
  have hused : idx'.used.entries = idx.used.entries.map (Prod.map (Prod.map n.person id) id) := h.used
  simp only [overloadFlags, CapacityIndex.overloads, hused, List.filterMap_map, List.map_filterMap]
  refine List.filterMap_congr fun e _ => ?_
  obtain ⟨⟨p, d⟩, u⟩ := e
  simp only [Function.comp_apply, Prod.map_apply, id, h.base]
  split
  · rfl
  · rfl

theorem planResult_renamed {st st' : PlanState} (h : n.States n.SameBooks st st') (order : List UUID) :
    planResult (req.renamed n) (order.map n.task) st' = (planResult req order st).renamed n := by
  have hends : st'.assignments.values.map Assignment.endDate = st.assignments.values.map Assignment.endDate := by
    rw [h.assignments.values, List.map_map]
    rfl
  have hfiled : (order.map n.task).filterMap st'.assignments.get? =
      (order.filterMap st.assignments.get?).map (Assignment.renamed n) := by
    rw [List.filterMap_map, List.map_filterMap]
    exact List.filterMap_congr fun tid _ => h.assignments.get? n.task_injective tid
  simp only [planResult, PlanResult.renamed, hends, hfiled, overloadFlags_renamed h.idx, List.map_append]
  refine congrArg₂ (PlanResult.mk _) (congrArg₂ _ rfl ?_) rfl
  rw [show (req.renamed n).deadline = req.deadline from rfl]
  split
  · split
    · rfl
    · rfl
  · rfl

theorem allowedPeople_renamed (t : Task) :
    allowedPeople (req.renamed n) (t.renamed n) = (allowedPeople req t).map (Person.renamed n) := by
  have hrows : (req.renamed n).people.map (fun p => (p.id, p)) =
      (req.people.map fun p => (p.id, p)).map (Prod.map n.person (Person.renamed n)) := by
    simp only [PlanRequest.renamed, List.map_map]
    rfl
  have hbound : (t.renamed n).allowedPersonIds.filterMap (fun pid => (peopleById (req.renamed n)).get? pid) =
      (t.allowedPersonIds.filterMap fun pid => (peopleById req).get? pid).map (Person.renamed n) := by
    simp only [Task.renamed, peopleById, hrows, List.filterMap_map, List.map_filterMap]
    refine List.filterMap_congr fun pid _ => ?_
    exact (OrdDict.Renames.ofList n.person_injective _).get? n.person_injective pid
  unfold allowedPeople
  rw [hbound]
  cases t.allowedPersonIds.filterMap fun pid => (peopleById req).get? pid with
  | nil => rfl
  | cons c cs => rfl

theorem matches_renamed (n : Naming) (req : PlanRequest) : n.Matches req (req.renamed n) where
  tasks := rfl
  dependencies := rfl
  horizonStart := rfl
  allowed t _ := by
    rw [allowedPeople_renamed, List.forall₂_map_right_iff, List.forall₂_same]
    exact fun c _ => rfl

end Result

/-- The plan of a request with other ids is the plan with other ids. -/
theorem plan_renamed (s : GreedySolver) (hsort : s.topologicalSort.ByInsertion) (n : Naming) (req : PlanRequest) :
    s.plan (req.renamed n) = (s.plan req).map (PlanResult.renamed n) := by
  have hrun := hsort n.task n.task_injective _ _ (buildDag_renamed req.tasks req.dependencies)
  rcases plan_runs s (matches_renamed n req)
    (Naming.SameBooks.indistinct n s.calendar req.horizonStart req.Candidate)
    (Naming.SameBooks.init n s.calendar req) hrun with ⟨e, hplan, hplan'⟩ | ⟨order, st, st', hplan, hplan', hst⟩
  · rw [hplan, hplan']
    rfl
  · rw [hplan, hplan', planResult_renamed hst]
    rfl

/-- Anna and Boris, and the two tasks, trade their ids. -/
def swappedIds : Naming where
  person := Equiv.swap 1 2
  task := Equiv.swap 7 8
  person_injective := (Equiv.swap 1 2).injective
  task_injective := (Equiv.swap 7 8).injective

/-- A split task behind a pair on one day, next to hours that are taken. -/
def pairedRequest : PlanRequest where
  people := [⟨1, "Анна", 8⟩, ⟨2, "Борис", 4⟩]
  tasks := [{ id := 7, name := "Монтаж", durationHours := 10, allowedPersonIds := [2, 1], isSplittable := true },
    { id := 8, name := "Съёмка", durationHours := 6, allowedPersonIds := [1, 2], pairMode := .required }]
  dependencies := [⟨7, 8, .FS, 1⟩]
  horizonStart := Date.ofYmd 2026 6 1
  dayOverrides := [⟨1, Date.ofYmd 2026 6 2, 0⟩]
  existingAllocations := [⟨2, Date.ofYmd 2026 6 3, 3⟩]

theorem plan_renamed_swapped : GreedySolver.onWeekdays.plan (pairedRequest.renamed swappedIds) =
    (GreedySolver.onWeekdays.plan pairedRequest).map (PlanResult.renamed swappedIds) :=
  plan_renamed .onWeekdays generationSort_byInsertion swappedIds pairedRequest

/-- Every id as it is. -/
def sameIds : Naming := ⟨id, id, Function.injective_id, Function.injective_id⟩

theorem task_sameIds : Task.renamed sameIds = id := by
  funext t
  rw [Task.renamed, show sameIds.person = id from rfl, List.map_id, Option.map_id]
  rfl

theorem dependency_sameIds : Dependency.renamed sameIds = id := rfl

theorem allocation_sameIds : DayAllocation.renamed sameIds = id := rfl

theorem assignment_sameIds : Assignment.renamed sameIds = id := by
  funext a
  rw [Assignment.renamed, allocation_sameIds, List.map_id]
  rfl

/-- The books before anything is placed. -/
def PlanRequest.books (req : PlanRequest) (cal : WorkingCalendar) : CapacityIndex :=
  .init req.people cal req.dayOverrides req.existingAllocations

/-- The same work for the same people, with the same hours free on the working
days from the start on. Capacities, overrides and load may differ otherwise. -/
structure PlanRequest.SameWork (cal : WorkingCalendar) (req req' : PlanRequest) : Prop where
  tasks : req'.tasks = req.tasks
  dependencies : req'.dependencies = req.dependencies
  horizonStart : req'.horizonStart = req.horizonStart
  allowed : ∀ t ∈ req.tasks, (allowedPeople req' t).map Person.id = (allowedPeople req t).map Person.id
  free : ∀ p d, req.Candidate p → req.horizonStart ≤ d → cal.isWorkingDay d = true →
    (req'.books cal).free p d = (req.books cal).free p d

/-- The free hours agree as far as the solver may look. -/
def SameFree (cal : WorkingCalendar) (start : Date) (known : UUID → Prop) (idx idx' : CapacityIndex) : Prop :=
  ∀ p d, known p → start ≤ d → cal.isWorkingDay d = true → idx'.free p d = idx.free p d

theorem sameFree_indistinct (cal : WorkingCalendar) (start : Date) (known : UUID → Prop) :
    sameIds.Indistinct cal start known (SameFree cal start known) where
  free h hp hd hw := h _ _ hp hd hw
  touch {idx idx' p} d h _ q e hq he hw := by
    have hleft := congrFun (congrFun (CapacityIndex.sameLoad_touch idx p d).free q) e
    have hright := congrFun (congrFun (CapacityIndex.sameLoad_touch idx' p d).free q) e
    rw [hleft]
    exact hright.trans (h q e hq he hw)
  occupy {idx idx'} as h q e hq he hw := by
    rw [allocation_sameIds, List.map_id, CapacityIndex.free_occupy, CapacityIndex.free_occupy,
      h q e hq he hw]

theorem PlanRequest.SameWork.matches {cal : WorkingCalendar} {req req' : PlanRequest} (h : req.SameWork cal req') :
    sameIds.Matches req req' where
  tasks := by rw [h.tasks, task_sameIds, List.map_id]
  dependencies := by rw [h.dependencies, dependency_sameIds, List.map_id]
  horizonStart := h.horizonStart
  allowed t ht := by
    rw [task_sameIds, id]
    have hids : List.Forall₂ (· = ·) ((allowedPeople req t).map Person.id) ((allowedPeople req' t).map Person.id) :=
      List.forall₂_eq_eq_eq ▸ (h.allowed t ht).symm
    rw [List.forall₂_map_left_iff, List.forall₂_map_right_iff] at hids
    exact hids.imp fun _ _ he => he.symm

/-- The same tasks on the same days for the same people, and the same end. -/
structure PlanResult.SamePlan (res res' : PlanResult) : Prop where
  assignments : res'.assignments = res.assignments
  endDate : res'.endDate = res.endDate

/-- Hours of the past, of days off and of people no task may go to, and how a
free hour comes about, change nothing of the plan. -/
theorem plan_reads_free_hours (s : GreedySolver) (req req' : PlanRequest) (h : req.SameWork s.calendar req') :
    SameOutcome PlanResult.SamePlan (s.plan req) (s.plan req') := by
  have hsort : s.topologicalSort.run (buildDag req'.tasks req'.dependencies) =
      (s.topologicalSort.run (buildDag req.tasks req.dependencies)).map (List.map sameIds.task) := by
    rw [h.tasks, h.dependencies, show sameIds.task = id from rfl, List.map_id_fun, Option.map_id, id]
  rcases plan_runs s h.matches (sameFree_indistinct s.calendar req.horizonStart req.Candidate)
    (fun p d hp hd hw => h.free p d hp hd hw) hsort with ⟨e, hplan, hplan'⟩ | ⟨order, st, st', hplan, hplan', hst⟩
  · rw [hplan, hplan']
    exact .error e
  · have hfiled : st'.assignments = st.assignments := by
      apply OrdDict.ext
      have hentries := hst.assignments
      rw [OrdDict.Renames, assignment_sameIds, show sameIds.task = id from rfl, Prod.map_id,
        List.map_id] at hentries
      exact hentries
    rw [hplan, hplan', show sameIds.task = id from rfl, List.map_id]
    exact .ok ⟨by simp only [planResult, hfiled], by simp only [planResult, hfiled]⟩

/-- Boris's last Friday and a stranger's Monday are taken as well. -/
theorem plan_reads_free_hours_paired : SameOutcome PlanResult.SamePlan (GreedySolver.onWeekdays.plan pairedRequest)
    (GreedySolver.onWeekdays.plan { pairedRequest with
      existingAllocations := pairedRequest.existingAllocations ++
        [⟨2, Date.ofYmd 2026 5 29, 8⟩, ⟨5, Date.ofYmd 2026 6 1, 8⟩] }) := by
  refine plan_reads_free_hours .onWeekdays pairedRequest _ ⟨rfl, rfl, rfl, fun t _ => rfl, fun p d hp hd _ => ?_⟩
  have hcandidate : p = 1 ∨ p = 2 := by
    obtain ⟨t, -, c, hc, rfl⟩ := hp
    have hmem := allowedPeople_subset hc
    simp only [pairedRequest, List.mem_cons, List.not_mem_nil, or_false] at hmem
    rcases hmem with rfl | rfl
    · exact Or.inl rfl
    · exact Or.inr rfl
  have hnone : hoursOn [⟨2, Date.ofYmd 2026 5 29, 8⟩, ⟨5, Date.ofYmd 2026 6 1, 8⟩] p d = 0 := by
    refine hoursOn_eq_zero fun a ha hon => ?_
    have hstart : Date.ofYmd 2026 5 29 < Date.ofYmd 2026 6 1 := by decide
    have hday : Date.ofYmd 2026 6 1 ≤ d := hd
    simp only [List.mem_cons, List.not_mem_nil, or_false] at ha
    rcases ha with rfl | rfl
    · have hlast : Date.ofYmd 2026 5 29 = d := hon.2
      exact absurd hday (Nat.not_le.mpr (hlast ▸ hstart))
    · have hstranger : 5 = p := hon.1
      rcases hcandidate with rfl | rfl
      · cases hstranger
      · cases hstranger
  simp only [PlanRequest.books, CapacityIndex.free, CapacityIndex.usedOn_init, hoursOn_append, hnone, Int.add_zero]
  rfl

end Planner
