import Planner.Accounting
import Planner.PlacementErrors

/-! Requests without dependencies whose tasks are all movable one-day tasks of a
single person. Such a request is always solved, by first fit in the solver's order. -/

namespace Planner

theorem not_edge_buildDag {tasks : List Task} (u v : UUID) : ¬ (buildDag tasks []).Edge u v := by
  intro h
  rw [EdgeGraph.Edge, edges_buildDag, OrdDict.mem_keys_ofList] at h
  simp at h

theorem acyclic_buildDag (tasks : List Task) : (buildDag tasks []).Acyclic := by
  intro v hv
  obtain ⟨u, -, hu⟩ := Relation.TransGen.tail'_iff.mp hv
  exact not_edge_buildDag u v hu

theorem earliestStart_of_no_deps {task : Task} {tasks : List Task}
    {assignments : OrdDict UUID Assignment} {horizonStart : Date} {cal : WorkingCalendar} :
    earliestStart task (buildDag tasks []) assignments horizonStart cal = horizonStart := by
  have hnil : (buildDag tasks []).predecessors task.id = [] :=
    List.eq_nil_iff_forall_not_mem.mpr fun u hu =>
      not_edge_buildDag u task.id (EdgeGraph.mem_predecessors.mp hu)
  rw [earliestStart, hnil, List.foldl_nil]

/-- One person, one day. -/
structure Task.Plain (t : Task) : Prop where
  movable : t.pinned? = none
  no_window : t.durationIsWindow = false
  whole : t.isSplittable = false
  alone : t.pairMode ≠ .required

structure PlanRequest.Plain (req : PlanRequest) : Prop where
  ids : (req.tasks.map Task.id).Nodup
  no_deps : req.dependencies = []
  no_load : req.existingAllocations = []
  pool : req.people ≠ []
  plain : ∀ t ∈ req.tasks, t.Plain

theorem PlanRequest.Plain.unpinned {req : PlanRequest} (h : req.Plain) : req.Unpinned :=
  fun t ht => (h.plain t ht).movable

/-- The first working day from `today` on which the person has room, else the
first working day. -/
def fitDay (cal : WorkingCalendar) (capacity : UUID → Date → Int) (load : List DayAllocation)
    (today : Date) (personId : UUID) (hours : Int) : Date :=
  (firstFit cal (fun p d => capacity p d - hoursOn load p d) [personId] hours
    (today + horizonDays + 1 - firstWorkingDay cal today) (firstWorkingDay cal today)).getD
      (firstWorkingDay cal today)

theorem allowedPeople_ne_nil {req : PlanRequest} (h : req.people ≠ []) (t : Task) :
    allowedPeople req t ≠ [] := by
  unfold allowedPeople
  split
  · exact h
  · rename_i hb
    exact fun he => hb (he ▸ rfl)

theorem mem_nodes_buildDag_nil {tasks : List Task} {v : UUID} :
    v ∈ (buildDag tasks []).nodes ↔ v ∈ tasks.map Task.id := by
  rw [buildDag, List.foldl_nil, mem_nodes_foldl_addNode]
  simp [EdgeGraph.empty]

theorem plain_plan (s : GreedySolver) {req : PlanRequest} (hreq : req.Plain) :
    ∃ order st, s.topologicalSort.run (buildDag req.tasks req.dependencies) = some order ∧
      order.Nodup ∧ (∀ tid, tid ∈ order ↔ tid ∈ req.tasks.map Task.id) ∧
      placeAll s.calendar req (buildDag req.tasks req.dependencies) order
        (startState s.calendar req) = .ok st ∧
      s.plan req = .ok (planResult req order st) := by
  have hp : (!req.tasks.isEmpty && req.people.isEmpty) = false := by simp [hreq.pool]
  obtain ⟨order, hrun⟩ := s.topologicalSort.complete (buildDag req.tasks req.dependencies)
    (hreq.no_deps ▸ acyclic_buildDag req.tasks)
  have htopo := s.topologicalSort.sound _ _ hrun
  obtain ⟨st, hall⟩ : ∃ st, placeAll s.calendar req (buildDag req.tasks req.dependencies) order
      (startState s.calendar req) = .ok st := by
    refine (placeAll_isOk htopo.nodup).mpr fun tid _ _ task ht => ⟨allowedPeople_ne_nil hreq.pool task, ?_⟩
    intro _ _ hs
    rw [(hreq.plain task (mem_of_tasksById ht).1).whole] at hs
    cases hs
  refine ⟨order, st, hrun, htopo.nodup, fun tid => ?_, hall, ?_⟩
  · rw [htopo.mem_iff, hreq.no_deps, mem_nodes_buildDag_nil]
  · simp only [GreedySolver.plan, hp, hrun, hall]
    rfl

theorem plain_plan_ok (s : GreedySolver) {req : PlanRequest} (hreq : req.Plain) :
    ∃ res, s.plan req = .ok res := by
  obtain ⟨order, st, -, -, -, -, hplan⟩ := plain_plan s hreq
  exact ⟨_, hplan⟩

theorem allowedPeople_subset {req : PlanRequest} {t : Task} {person : Person}
    (h : person ∈ allowedPeople req t) : person ∈ req.people := by
  unfold allowedPeople at h
  split at h
  · exact h
  · obtain ⟨pid, -, hget⟩ := List.mem_filterMap.mp h
    obtain ⟨q, hq, he⟩ := List.mem_map.mp (OrdDict.mem_of_get?_ofList hget)
    exact (Prod.mk.inj he).2 ▸ hq

theorem allowedPeople_bound {req : PlanRequest} {t : Task} {p : UUID} {person : Person}
    (hp : p ∈ req.people.map Person.id) (hbound : t.allowedPersonIds = [p])
    (h : person ∈ allowedPeople req t) : person.id = p := by
  have hk : p ∈ (peopleById req).keys := by
    rw [peopleById, OrdDict.mem_keys_ofList, List.map_map]
    exact hp
  obtain ⟨q, hq⟩ := Option.isSome_iff_exists.mp (OrdDict.mem_keys.mp hk)
  have hid : q.id = p := by
    obtain ⟨r, -, he⟩ := List.mem_map.mp (OrdDict.mem_of_get?_ofList hq)
    obtain ⟨rfl, rfl⟩ := Prod.mk.inj he
    rfl
  have hallowed : allowedPeople req t = [q] := by simp [allowedPeople, hbound, hq]
  rw [hallowed, List.mem_singleton] at h
  rw [h, hid]

theorem fitDay_congr {cal : WorkingCalendar} {capacity : UUID → Date → Int}
    {load load' : List DayAllocation} (h : ∀ p d, hoursOn load p d = hoursOn load' p d) (today : Date)
    (personId : UUID) (hours : Int) :
    fitDay cal capacity load today personId hours = fitDay cal capacity load' today personId hours := by
  simp only [fitDay, h]

theorem Placed.person_mem {task : Task} {earliest : Date} {cal : WorkingCalendar}
    {free : UUID → Date → Int} {limit : Date} {allowed : List Person} {person : Person}
    {p : Placement} (h : Placed task earliest cal free limit allowed person p) : person ∈ allowed := by
  cases h with
  | window _ ha => exact ha ▸ List.mem_cons_self
  | pair _ _ ha => exact ha ▸ List.mem_cons_self
  | single _ _ hwin =>
    obtain ⟨pre, post, rfl, -⟩ := hwin
    simp

/-- A plain task goes to the first day with room, whoever wins it. -/
theorem Placed.plain {task : Task} {earliest : Date} {cal : WorkingCalendar} {free : UUID → Date → Int}
    {limit : Date} {allowed : List Person} {person : Person} {p : Placement}
    (h : Placed task earliest cal free limit allowed person p) (hplain : task.Plain) :
    p = .onDay [person.id] ((firstFit cal free [person.id] task.durationHours
      (limit + 1 - firstWorkingDay cal earliest) (firstWorkingDay cal earliest)).getD
        (firstWorkingDay cal earliest)) task.durationHours := by
  cases h with
  | window hw => rw [hplain.no_window] at hw; cases hw
  | pair _ hp => exact absurd hp hplain.alone
  | single _ _ hwin =>
    obtain ⟨_, _, _, hp, -⟩ := hwin
    simp only [placementOf, hplain.whole, Bool.false_eq_true, if_false] at hp
    exact (Except.ok.inj hp).symm

/-- Where a plain task goes, given what was placed before its turn. -/
theorem plain_turn {cal : WorkingCalendar} {req : PlanRequest} (hreq : req.Plain)
    {pre post : List UUID} {st : PlanState} {t : Task} (horder : (pre ++ t.id :: post).Nodup)
    (h : placeAll cal req (buildDag req.tasks req.dependencies) (pre ++ t.id :: post)
      (startState cal req) = .ok st) (ht : t ∈ req.tasks) :
    ∃ mid person day, Booked cal req pre mid ∧
      placeAll cal req (buildDag req.tasks req.dependencies) pre (startState cal req) = .ok mid ∧
      (∀ tid a, mid.assignments.get? tid = some a → st.assignments.get? tid = some a) ∧
      person ∈ allowedPeople req t ∧
      day = fitDay cal (capacityOn req.people cal req.dayOverrides)
        (mid.assignments.values.flatMap Assignment.allocations) req.horizonStart person.id
        t.durationHours ∧
      st.assignments.get? t.id =
        some ⟨t.id, person.id, day, day, [⟨person.id, day, t.durationHours⟩]⟩ := by
  have hplain := hreq.plain t ht
  obtain ⟨mid, person, p, idx, hpre, hpl, -, hpost⟩ := turn_at hreq.ids horder h ht hplain.movable
  have hb : Booked cal req pre mid := booked_of_placeAll hreq.unpinned (List.nodup_append.mp horder).1 hpre
  have hfree : mid.idx.free = fun q d => capacityOn req.people cal req.dayOverrides q d -
      hoursOn (mid.assignments.values.flatMap Assignment.allocations) q d := by
    funext q d
    rw [CapacityIndex.free, hb.base_eq, hb.usedOn_eq, hreq.no_load, List.nil_append]
  have hday : p = .onDay [person.id] (fitDay cal (capacityOn req.people cal req.dayOverrides)
      (mid.assignments.values.flatMap Assignment.allocations) req.horizonStart person.id
      t.durationHours) t.durationHours := by
    have hp := hpl.plain hplain
    simp only [hreq.no_deps, earliestStart_of_no_deps, hfree] at hp
    exact hp
  refine ⟨mid, person, _, hb, hpre, fun tid a ha => ?_, hpl.person_mem, rfl, ?_⟩
  · obtain ⟨all, hall, hrest⟩ := placeAll_append h
    obtain rfl := Except.ok.inj (hpre.symm.trans hall)
    exact placeAll_keeps ha hrest
  · rw [placeAll_keeps (OrdDict.get?_insert_self _ _ _) hpost, hday]
    rfl

end Planner
