import Planner.PlacementTurns

/-! What the capacity index holds in general: the existing load, the hours of the
immovable tasks, and those of every task placed since. -/

namespace Planner

open CapacityIndex

/-- The hours of the immovable tasks. -/
def PlanRequest.pinnedAllocations (req : PlanRequest) : List DayAllocation :=
  (req.tasks.filterMap Task.pinned?).flatMap Assignment.allocations

section Start

theorem occupy_append (idx : CapacityIndex) (as bs : List DayAllocation) :
    idx.occupy (as ++ bs) = (idx.occupy as).occupy bs := by
  simp only [occupy, List.foldl_append]

theorem foldl_pinTask_idx (ts : List Task) (st : PlanState) : (ts.foldl pinTask st).idx =
    st.idx.occupy ((ts.filterMap Task.pinned?).flatMap Assignment.allocations) := by
  induction ts generalizing st with
  | nil => rfl
  | cons t ts ih =>
    rw [List.foldl_cons, ih]
    cases hp : t.pinned? with
    | none => simp only [pinTask, hp, List.filterMap_cons_none hp]
    | some a =>
      rw [List.filterMap_cons_some hp, List.flatMap_cons, occupy_append]
      simp only [pinTask, hp]

theorem foldl_pinTask_values {ts : List Task} {st : PlanState}
    (hids : ((ts.filter fun t => t.pinned?.isSome).map Task.id).Nodup)
    (hfresh : ∀ t ∈ ts, t.pinned?.isSome → t.id ∉ st.assignments.keys) :
    (ts.foldl pinTask st).assignments.values = st.assignments.values ++ ts.filterMap Task.pinned? := by
  induction ts generalizing st with
  | nil => simp
  | cons t ts ih =>
    rw [List.foldl_cons]
    cases hp : t.pinned? with
    | none =>
      rw [List.filter_cons_of_neg (by simp [hp])] at hids
      have hsame : pinTask st t = st := by simp only [pinTask, hp]
      rw [hsame, List.filterMap_cons_none hp]
      exact ih hids fun u hu => hfresh u (List.mem_cons_of_mem _ hu)
    | some a =>
      rw [List.filter_cons_of_pos (by simp [hp]), List.map_cons, List.nodup_cons] at hids
      have hnew : t.id ∉ st.assignments.keys := hfresh t List.mem_cons_self (by simp [hp])
      have hpin : (pinTask st t).assignments = st.assignments.insert t.id a := by simp only [pinTask, hp]
      rw [ih hids.2, hpin, OrdDict.values_insert_of_not_mem hnew, List.filterMap_cons_some hp, List.append_assoc]
      · rfl
      · intro u hu hup hk
        rw [hpin] at hk
        rcases OrdDict.mem_keys_insert.mp hk with he | hk
        · exact hids.1 (he ▸ List.mem_map_of_mem (List.mem_filter.mpr ⟨hu, hup⟩))
        · exact hfresh u (List.mem_cons_of_mem _ hu) hup hk

variable (cal : WorkingCalendar) (req : PlanRequest)

theorem startState_idx : (startState cal req).idx =
    (CapacityIndex.init req.people cal req.dayOverrides req.existingAllocations).occupy req.pinnedAllocations :=
  foldl_pinTask_idx req.tasks _

theorem startState_values (hids : ((req.tasks.filter fun t => t.pinned?.isSome).map Task.id).Nodup) :
    (startState cal req).assignments.values = req.tasks.filterMap Task.pinned? := by
  rw [startState, foldl_pinTask_values hids (by simp)]
  rfl

variable {req}

theorem nodup_pinned_ids (hids : (req.tasks.map Task.id).Nodup) :
    ((req.tasks.filter fun t => t.pinned?.isSome).map Task.id).Nodup :=
  (List.filter_sublist.map Task.id).nodup hids

theorem startState_pinned (hids : ((req.tasks.filter fun t => t.pinned?.isSome).map Task.id).Nodup) {t : Task}
    (ht : t ∈ req.tasks) {a : Assignment} (hp : t.pinned? = some a) :
    (startState cal req).assignments.get? t.id = some a := by
  have hmem : a ∈ (startState cal req).assignments.values := by
    rw [startState_values cal req hids]
    exact List.mem_filterMap.mpr ⟨t, ht, hp⟩
  obtain ⟨k, hk⟩ := OrdDict.mem_values.mp hmem
  obtain ⟨u, -, rfl, hu⟩ := startState_get? hk
  rwa [← Task.pinned?_taskId hu, Task.pinned?_taskId hp] at hk

end Start

/-- The books of a pass: `placed` are the assignments of the movable tasks that
had their turn, and every hour on the index belongs to one of the three kinds. -/
structure Accounted (cal : WorkingCalendar) (req : PlanRequest) (placed : List Assignment) (st : PlanState) :
    Prop where
  values_eq : st.assignments.values = (startState cal req).assignments.values ++ placed
  base_eq : st.idx.baseCapacity = capacityOn req.people cal req.dayOverrides
  usedOn_eq : ∀ p d, st.idx.usedOn p d = hoursOn (req.existingAllocations ++ req.pinnedAllocations ++
    placed.flatMap Assignment.allocations) p d
  keyed : ∀ al ∈ req.existingAllocations ++ req.pinnedAllocations ++ placed.flatMap Assignment.allocations,
    (al.personId, al.day) ∈ st.idx.used.keys

section Books

variable {cal : WorkingCalendar} {req : PlanRequest} {graph : Dag} {placed : List Assignment} {st st' : PlanState}

theorem accounted_start : Accounted cal req [] (startState cal req) := by
  refine ⟨by simp, ?_, fun p d => ?_, fun al hal => ?_⟩
  · rw [startState_idx]
    rfl
  · rw [startState_idx, usedOn_occupy, usedOn_init]
    simp
  · rw [startState_idx]
    rw [List.flatMap_nil, List.append_nil] at hal
    refine mem_keys_foldl_addHours.mpr ?_
    rcases List.mem_append.mp hal with hal | hal
    · exact Or.inr (mem_keys_foldl_addHours.mpr (Or.inl ⟨al, hal, rfl⟩))
    · exact Or.inl ⟨al, hal, rfl⟩

/-- A turn that places a task adds its assignment to the books. -/
theorem Accounted.place (h : Accounted cal req placed st) {tid : UUID} (hnew : tid ∉ st.assignments.keys)
    {p : Placement} {person : Person} {idx : CapacityIndex} (hl : SameLoad st.idx idx) :
    Accounted cal req (placed ++ [p.toAssignment tid person])
      ⟨idx.occupy p.allocs, st.assignments.insert tid (p.toAssignment tid person)⟩ := by
  have hflat : (placed ++ [p.toAssignment tid person]).flatMap Assignment.allocations =
      placed.flatMap Assignment.allocations ++ p.allocs := by
    rw [List.flatMap_append]
    simp [Placement.toAssignment]
  obtain ⟨hused, hkeyed⟩ := carried_occupy hl h.usedOn_eq h.keyed p.allocs
  rw [List.append_assoc, ← hflat] at hused hkeyed
  refine ⟨?_, hl.baseCapacity.trans h.base_eq, hused, hkeyed⟩
  rw [OrdDict.values_insert_of_not_mem hnew, h.values_eq, List.append_assoc]

theorem accounted_of_placeAll {order : List UUID}
    (h : placeAll cal req graph order (startState cal req) = .ok st) : ∃ placed, Accounted cal req placed st := by
  refine placeAll_induction (motive := fun s => ∃ placed, Accounted cal req placed s) ?_ ⟨[], accounted_start⟩ h
  rintro tid - s s' ⟨placed, hs⟩ hstep
  rcases placeTask_cases hstep with ⟨rfl, -⟩ | ⟨task, person, p, idx, hnew, -, -, hl, rfl⟩
  · exact ⟨placed, hs⟩
  · exact ⟨_, hs.place hnew hl⟩

end Books

section Result

variable {s : GreedySolver} {req : PlanRequest} {res : PlanResult}

/-- A plan shows all that is filed, in the order of the sort. -/
theorem plan_accounted (h : s.plan req = .ok res) :
    ∃ order st placed, s.topologicalSort.run (buildDag req.tasks req.dependencies) = some order ∧
      res = planResult req order st ∧ Accounted s.calendar req placed st ∧
      res.assignments.Perm st.assignments.values := by
  obtain ⟨order, st, hrun, hall, rfl⟩ := plan_ok h
  obtain ⟨placed, hbooks⟩ := accounted_of_placeAll hall
  refine ⟨order, st, placed, hrun, rfl, hbooks, ?_⟩
  refine OrdDict.perm_values (s.topologicalSort.sound _ _ hrun).nodup fun k hk => ?_
  obtain ⟨t, ht, rfl⟩ := List.mem_map.mp (placed_mem hall hk)
  exact mem_order_of_task hrun ht

/-- With immovable tasks under ids of their own, the index holds what the plan shows. -/
theorem plan_usedOn (hids : ((req.tasks.filter fun t => t.pinned?.isSome).map Task.id).Nodup)
    (h : s.plan req = .ok res) :
    ∃ order st, res = planResult req order st ∧
      st.idx.baseCapacity = capacityOn req.people s.calendar req.dayOverrides ∧
      (∀ p d, st.idx.usedOn p d =
        hoursOn (req.existingAllocations ++ res.assignments.flatMap Assignment.allocations) p d) ∧
      ∀ al ∈ req.existingAllocations ++ res.assignments.flatMap Assignment.allocations,
        (al.personId, al.day) ∈ st.idx.used.keys := by
  obtain ⟨order, st, placed, -, hres, hbooks, hperm⟩ := plan_accounted h
  rw [hbooks.values_eq, startState_values s.calendar req hids] at hperm
  have hflat : (res.assignments.flatMap Assignment.allocations).Perm
      (req.pinnedAllocations ++ placed.flatMap Assignment.allocations) := by
    refine (hperm.flatMap_right _).trans ?_
    rw [List.flatMap_append]
    exact List.Perm.refl _
  have hall := List.Perm.append_left req.existingAllocations hflat
  rw [← List.append_assoc] at hall
  refine ⟨order, st, hres, hbooks.base_eq, fun p d => ?_, fun al hal => hbooks.keyed al (hall.subset hal)⟩
  rw [hbooks.usedOn_eq]
  exact (hoursOn_perm hall p d).symm

end Result

end Planner
