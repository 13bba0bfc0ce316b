import Planner.DaysOff
import Planner.PlacementDays
import Planner.PlainPlan

/-! What a task finds free at its turn: no more than the capacity of the people
it is bound to, and all of it when nobody is contended for. -/

namespace Planner

/-- Movable work for people of the pool who can do it, on days without overrides. -/
structure PlanRequest.Regular (req : PlanRequest) : Prop where
  positive : ∀ t ∈ req.tasks, 0 < t.durationHours
  movable : ∀ t ∈ req.tasks, t.status ≠ .done
  bound : ∀ t ∈ req.tasks, t.allowedPersonIds ≠ [] ∧ ∀ pid ∈ t.allowedPersonIds, pid ∈ req.people.map Person.id
  able : ∀ t ∈ req.tasks, t.durationIsWindow = false → ∀ p ∈ allowedPeople req t, 0 < p.capacityH
  whole : ∀ t ∈ req.tasks, t.durationIsWindow = false → t.isSplittable = false →
    ∀ p ∈ allowedPeople req t, t.durationHours ≤ p.capacityH
  lags : ∀ d ∈ req.dependencies, 0 ≤ d.lagWorkingDays
  no_overrides : req.dayOverrides = []

/-- No load, and nobody is bound to two tasks that take hours. -/
structure PlanRequest.Uncontended (req : PlanRequest) : Prop where
  no_load : req.existingAllocations = []
  own : ∀ t ∈ req.tasks, ∀ u ∈ req.tasks, t.durationIsWindow = false → u.durationIsWindow = false →
    t.id ≠ u.id → ∀ pid ∈ t.allowedPersonIds, pid ∉ u.allowedPersonIds

theorem PlanRequest.Regular.unpinned {req : PlanRequest} (h : req.Regular) : req.Unpinned := by
  intro t ht
  unfold Task.pinned?
  split
  · rename_i hdone _ _
    exact absurd hdone (h.movable t ht)
  · rfl

section People

variable {req : PlanRequest}

theorem peopleById_id {pid : UUID} {q : Person} (h : (peopleById req).get? pid = some q) : q.id = pid := by
  obtain ⟨r, -, he⟩ := List.mem_map.mp (OrdDict.mem_of_get?_ofList h)
  obtain ⟨rfl, rfl⟩ := Prod.mk.inj he
  rfl

theorem mem_allowedPeople (hreq : req.Regular) {task : Task} (ht : task ∈ req.tasks) {q : Person}
    (hq : q ∈ allowedPeople req task) :
    q.id ∈ task.allowedPersonIds ∧ (peopleById req).get? q.id = some q := by
  obtain ⟨hne, hpool⟩ := hreq.bound task ht
  obtain ⟨pid, hpid⟩ := List.exists_mem_of_ne_nil _ hne
  have hk : pid ∈ (peopleById req).keys := by
    rw [peopleById, OrdDict.mem_keys_ofList, List.map_map]
    exact hpool pid hpid
  obtain ⟨r, hr⟩ := Option.isSome_iff_exists.mp (OrdDict.mem_keys.mp hk)
  unfold allowedPeople at hq
  split at hq
  · rename_i hnil
    have hm := List.mem_filterMap.mpr ⟨pid, hpid, hr⟩
    rw [hnil] at hm
    cases hm
  · obtain ⟨pid', hpid', hq⟩ := List.mem_filterMap.mp hq
    exact ⟨(peopleById_id hq).symm ▸ hpid', (peopleById_id hq).symm ▸ hq⟩

theorem capacityOn_person {cal : WorkingCalendar} {q : Person} (hq : (peopleById req).get? q.id = some q)
    {d : Date} (hd : cal.isWorkingDay d = true) : capacityOn req.people cal [] q.id d = q.capacityH := by
  have hcap := OrdDict.get?_ofList_map (req.people.map fun p => (p.id, p)) Person.capacityH q.id
  rw [List.map_map, ← peopleById, hq] at hcap
  rw [capacityOn_nil, if_pos hd, OrdDict.getD]
  exact congrArg (fun o => o.getD 0) hcap

end People

section Load

variable {task : Task} {earliest limit : Date} {cal : WorkingCalendar} {free : UUID → Date → Int}
  {allowed : List Person} {person : Person} {p : Placement}

theorem placementOf_hours {pid : UUID} (hpos : 0 < task.durationHours)
    (h : placementOf task pid earliest cal free limit = .ok p) :
    ∀ al ∈ p.allocs, 0 < al.hours ∧ al.personId = pid := by
  unfold placementOf at h
  dsimp only at h
  split at h
  · rw [(Placement.spanning_ok h).1]
    intro al hal
    split at hal
    · rename_i hrest
      rcases List.mem_append.mp hal with hal | hal
      · exact ⟨(mem_fillDays hal).2.2.2.1, (mem_fillDays hal).1⟩
      · rw [List.mem_singleton.mp hal]
        exact ⟨hrest, rfl⟩
    · exact ⟨(mem_fillDays hal).2.2.2.1, (mem_fillDays hal).1⟩
  · obtain rfl := Except.ok.inj h
    intro al hal
    obtain ⟨q, hq, rfl⟩ := List.mem_map.mp hal
    exact ⟨hpos, List.mem_singleton.mp hq⟩

/-- Hours go to people of the binding, and none for a window. -/
theorem Placed.hours (h : Placed task earliest cal free limit allowed person p) (hpos : 0 < task.durationHours) :
    ∀ al ∈ p.allocs, task.durationIsWindow = false ∧ 0 < al.hours ∧ ∃ q ∈ allowed, al.personId = q.id := by
  cases h with
  | window => nofun
  | @pair p2 rest hw _ ha =>
    intro al hal
    obtain ⟨pid, hpid, rfl⟩ := List.mem_map.mp hal
    obtain ⟨q, hq, rfl⟩ := List.mem_map.mp (show pid ∈ [person, p2].map Person.id from hpid)
    exact ⟨hw, hpos, q, ha ▸ List.mem_append_left rest hq, rfl⟩
  | single hw _ hwin =>
    obtain ⟨pre, post, rfl, hp, -⟩ := hwin
    intro al hal
    obtain ⟨hal, hid⟩ := placementOf_hours hpos hp al hal
    exact ⟨hw, hal, person, by simp, hid⟩

variable {req : PlanRequest} {graph : Dag} {order pre post : List UUID} {st mid : PlanState}

/-- Hours on the books at a turn, but for the existing load. -/
theorem filed_hours (hreq : req.Regular) (h : placeAll cal req graph order (startState cal req) = .ok st)
    {al : DayAllocation} (hal : al ∈ st.assignments.values.flatMap Assignment.allocations) :
    0 < al.hours ∧ ∃ u ∈ req.tasks, u.id ∈ st.assignments.keys ∧ u.durationIsWindow = false ∧
      al.personId ∈ u.allowedPersonIds := by
  obtain ⟨a, ha, hal⟩ := List.mem_flatMap.mp hal
  obtain ⟨k, hk⟩ := OrdDict.mem_values.mp ha
  obtain ⟨u, hu, rfl, earliest, free, person, p, -, hpl, rfl⟩ := filed_placed hreq.unpinned h hk
  obtain ⟨hw, hpos, q, hq, hid⟩ := hpl.hours (hreq.positive u hu) al hal
  exact ⟨hpos, u, hu, OrdDict.mem_keys.mpr (by simp [hk]), hw, hid ▸ (mem_allowedPeople hreq hu hq).1⟩

theorem Booked.free_le (hreq : req.Regular) (hload : ∀ al ∈ req.existingAllocations, 0 ≤ al.hours)
    (h : placeAll cal req graph pre (startState cal req) = .ok mid) (hb : Booked cal req pre mid)
    (ht : task ∈ req.tasks) {q : Person} (hq : q ∈ allowedPeople req task) {d : Date}
    (hd : cal.isWorkingDay d = true) : mid.idx.free q.id d ≤ q.capacityH := by
  have hused : 0 ≤ mid.idx.usedOn q.id d := by
    rw [hb.usedOn_eq]
    refine hoursOn_nonneg (fun al hal => ?_) q.id d
    rcases List.mem_append.mp hal with hal | hal
    · exact hload al hal
    · exact (filed_hours hreq h hal).1.le
  rw [CapacityIndex.free, hb.base_eq, hreq.no_overrides, capacityOn_person (mem_allowedPeople hreq ht hq).2 hd]
  exact Int.sub_le_self _ hused

theorem Booked.free_eq (hreq : req.Regular) (hown : req.Uncontended)
    (h : placeAll cal req graph pre (startState cal req) = .ok mid) (hb : Booked cal req pre mid)
    (ht : task ∈ req.tasks) (hnew : task.id ∉ pre) (hw : task.durationIsWindow = false) {q : Person}
    (hq : q ∈ allowedPeople req task) {d : Date} (hd : cal.isWorkingDay d = true) :
    mid.idx.free q.id d = q.capacityH := by
  obtain ⟨hbound, hpool⟩ := mem_allowedPeople hreq ht hq
  have hused : mid.idx.usedOn q.id d = 0 := by
    rw [hb.usedOn_eq, hown.no_load, List.nil_append]
    refine hoursOn_eq_zero fun al hal hpd => ?_
    obtain ⟨-, u, hu, hk, huw, hup⟩ := filed_hours hreq h hal
    have hne : task.id ≠ u.id := fun he => hnew (he ▸ hb.keys_subset u.id hk)
    exact hown.own task ht u hu hw huw hne q.id hbound (hpd.1 ▸ hup)
  rw [CapacityIndex.free, hb.base_eq, hreq.no_overrides, capacityOn_person hpool hd, hused, sub_zero]

/-- The turn of a task: what was filed before stays, and it is placed by what is free. -/
theorem turn_in_order (hpin : req.Unpinned) (hnodup : order.Nodup) (he : order = pre ++ task.id :: post)
    (htask : (tasksById req).get? task.id = some task)
    (h : placeAll cal req graph order (startState cal req) = .ok st)
    (hfits : neverDumps cal req graph order (startState cal req) = true) :
    ∃ mid person p, placeAll cal req graph pre (startState cal req) = .ok mid ∧ Booked cal req pre mid ∧
      (∀ k a, mid.assignments.get? k = some a → st.assignments.get? k = some a) ∧
      Placed task (earliestStart task graph mid.assignments req.horizonStart cal) cal mid.idx.free
        (horizonLimit req) (allowedPeople req task) person p ∧
      fitsIn task (earliestStart task graph mid.assignments req.horizonStart cal) cal mid.idx.free
        (horizonLimit req) (allowedPeople req task) person.id = true ∧
      st.assignments.get? task.id = some (p.toAssignment task.id person) := by
  subst he
  obtain ⟨mid, hpre, hrest⟩ := placeAll_append h
  have hb : Booked cal req pre mid := booked_of_placeAll hpin (List.nodup_append.mp hnodup).1 hpre
  have hnew : task.id ∉ mid.assignments.keys := fun hk =>
    (List.nodup_append.mp hnodup).2.2 _ (hb.keys_subset _ hk) _ List.mem_cons_self rfl
  have hkeep := fun k a hk => @placeAll_keeps cal req graph _ mid st k a hk hrest
  have hfits' := neverDumps_append hfits hpre
  simp only [placeAll] at hrest
  split at hrest
  · cases hrest
  · rename_i st₁ hstep
    simp only [neverDumps, hstep, htask, Bool.and_eq_true] at hfits'
    rcases placeTask_cases hstep with ⟨-, hk | hn⟩ | ⟨task', person, p, idx, -, htask', hpl, -, rfl⟩
    · exact absurd hk hnew
    · rw [htask] at hn
      cases hn
    · obtain rfl := Option.some.inj (htask.symm.trans htask')
      have hself := OrdDict.get?_insert_self mid.assignments task.id (p.toAssignment task.id person)
      rw [hself] at hfits'
      exact ⟨mid, person, p, hpre, hb, hkeep, hpl, hfits'.1, placeAll_keeps hself hrest⟩

end Load

end Planner
