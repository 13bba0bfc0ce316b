import Planner.DependencyLaw

/-! What the capacity index holds when nothing is pinned: the existing load and
the allocations of every task placed so far, in the order of placement. -/

namespace Planner

open CapacityIndex

theorem placeAll_scan {cal : WorkingCalendar} {req : PlanRequest} {graph : Dag}
    {motive : List UUID → PlanState → Prop} {order : List UUID} {st st' : PlanState}
    (step : ∀ done tid rest s s', order = done ++ tid :: rest → motive done s →
      placeTask cal req graph s tid = .ok s' → motive (done ++ [tid]) s')
    (h₀ : motive [] st) (h : placeAll cal req graph order st = .ok st') : motive order st' := by
  have key : ∀ rest done s, order = done ++ rest → motive done s →
      placeAll cal req graph rest s = .ok st' → motive order st' := by
    intro rest
    induction rest with
    | nil =>
      intro done s he hm hs
      obtain rfl := Except.ok.inj hs
      rwa [he, List.append_nil]
    | cons tid rest ih =>
      intro done s he hm hs
      simp only [placeAll] at hs
      split at hs
      · cases hs
      · rename_i s₁ h₁
        exact ih (done ++ [tid]) s₁ (by simpa using he) (step done tid rest s s₁ he hm h₁) hs
  exact key order [] st rfl h₀ h

def PlanRequest.Unpinned (req : PlanRequest) : Prop := ∀ t ∈ req.tasks, t.pinned? = none

theorem startState_unpinned {cal : WorkingCalendar} {req : PlanRequest} (hpin : req.Unpinned) :
    startState cal req =
      ⟨.init req.people cal req.dayOverrides req.existingAllocations, OrdDict.empty⟩ := by
  have key : ∀ (ts : List Task) (st : PlanState), (∀ t ∈ ts, t.pinned? = none) →
      ts.foldl pinTask st = st := by
    intro ts
    induction ts with
    | nil => exact fun _ _ => rfl
    | cons t ts ih =>
      intro st hts
      have ht : pinTask st t = st := by simp only [pinTask, hts t List.mem_cons_self]
      rw [List.foldl_cons, ht]
      exact ih st fun u hu => hts u (List.mem_cons_of_mem _ hu)
  exact key req.tasks _ hpin

/-- Booking `allocs` on top of what an index carries. -/
theorem carried_occupy {idx idx' : CapacityIndex} {load : List DayAllocation} (hl : SameLoad idx idx')
    (hused : ∀ p d, idx.usedOn p d = hoursOn load p d)
    (hkeyed : ∀ al ∈ load, (al.personId, al.day) ∈ idx.used.keys) (allocs : List DayAllocation) :
    (∀ p d, (idx'.occupy allocs).usedOn p d = hoursOn (load ++ allocs) p d) ∧
      ∀ al ∈ load ++ allocs, (al.personId, al.day) ∈ (idx'.occupy allocs).used.keys := by
  refine ⟨fun p d => ?_, fun al hal => mem_keys_foldl_addHours.mpr ?_⟩
  · rw [usedOn_occupy, hl.usedOn, hused, hoursOn_append]
  · rcases List.mem_append.mp hal with hal | hal
    · exact Or.inr (hl.keys (hkeyed al hal))
    · exact Or.inl ⟨al, hal, rfl⟩

/-- The state after the tasks of `done` had their turn. -/
structure Booked (cal : WorkingCalendar) (req : PlanRequest) (done : List UUID) (st : PlanState) :
    Prop where
  keys_subset : ∀ k ∈ st.assignments.keys, k ∈ done
  values_eq : st.assignments.values = done.filterMap st.assignments.get?
  base_eq : st.idx.baseCapacity = capacityOn req.people cal req.dayOverrides
  usedOn_eq : ∀ p d, st.idx.usedOn p d = hoursOn (req.existingAllocations ++
    st.assignments.values.flatMap Assignment.allocations) p d
  keyed : ∀ al ∈ req.existingAllocations ++ st.assignments.values.flatMap Assignment.allocations,
    (al.personId, al.day) ∈ st.idx.used.keys

theorem booked_start {cal : WorkingCalendar} {req : PlanRequest} (hpin : req.Unpinned) :
    Booked cal req [] (startState cal req) := by
  rw [startState_unpinned hpin]
  refine ⟨by simp, by simp, rfl, fun p d => by simp, fun al hal => ?_⟩
  simp only [OrdDict.values_empty, List.flatMap_nil, List.append_nil] at hal
  exact mem_keys_foldl_addHours.mpr (Or.inl ⟨al, hal, rfl⟩)

theorem Booked.step {cal : WorkingCalendar} {req : PlanRequest} {graph : Dag} {done : List UUID}
    {tid : UUID} {st st' : PlanState} (h : Booked cal req done st) (hnew : tid ∉ done)
    (hstep : placeTask cal req graph st tid = .ok st') : Booked cal req (done ++ [tid]) st' := by
  have hnone : st.assignments.get? tid = none :=
    OrdDict.get?_eq_none_iff.mpr fun hk => hnew (h.keys_subset tid hk)
  rcases placeTask_cases hstep with ⟨rfl, -⟩ | ⟨task, person, p, idx, hk, -, -, hl, rfl⟩
  · refine ⟨fun k hk => List.mem_append_left _ (h.keys_subset k hk), ?_, h.base_eq, h.usedOn_eq,
      h.keyed⟩
    rw [List.filterMap_append, h.values_eq]
    simp [hnone]
  · have hvalues := OrdDict.values_insert_of_not_mem hk (p.toAssignment tid person)
    have hflat : (st.assignments.insert tid (p.toAssignment tid person)).values.flatMap
        Assignment.allocations = st.assignments.values.flatMap Assignment.allocations ++ p.allocs := by
      rw [hvalues, List.flatMap_append]
      simp [Placement.toAssignment]
    have hold : done.filterMap (st.assignments.insert tid (p.toAssignment tid person)).get? =
        done.filterMap st.assignments.get? := by
      refine List.filterMap_congr fun k hkd => ?_
      exact OrdDict.get?_insert_of_ne _ _ fun he => hnew (he ▸ hkd)
    obtain ⟨hused, hkeyed⟩ := carried_occupy hl h.usedOn_eq h.keyed p.allocs
    rw [List.append_assoc, ← hflat] at hused hkeyed
    refine ⟨fun k hk => ?_, ?_, hl.baseCapacity.trans h.base_eq, hused, hkeyed⟩
    · rcases OrdDict.mem_keys_insert.mp hk with rfl | hk
      · simp
      · exact List.mem_append_left _ (h.keys_subset k hk)
    · rw [hvalues, List.filterMap_append, hold, h.values_eq]
      simp

theorem booked_of_placeAll {cal : WorkingCalendar} {req : PlanRequest} {graph : Dag}
    {order : List UUID} {st : PlanState} (hpin : req.Unpinned) (hnodup : order.Nodup)
    (h : placeAll cal req graph order (startState cal req) = .ok st) : Booked cal req order st := by
  refine placeAll_scan (motive := Booked cal req) ?_ (booked_start hpin) h
  intro done tid rest s s' he hs hstep
  refine hs.step (fun hm => ?_) hstep
  exact (List.nodup_append.mp (he ▸ hnodup)).2.2 tid hm tid List.mem_cons_self rfl

/-- A plan of movable tasks: the state it was read off. -/
theorem plan_booked {s : GreedySolver} {req : PlanRequest} {res : PlanResult} (hpin : req.Unpinned)
    (h : s.plan req = .ok res) :
    ∃ order st, s.topologicalSort.run (buildDag req.tasks req.dependencies) = some order ∧
      placeAll s.calendar req (buildDag req.tasks req.dependencies) order
        (startState s.calendar req) = .ok st ∧
      res = planResult req order st ∧ Booked s.calendar req order st ∧
      res.assignments = st.assignments.values := by
  obtain ⟨order, st, hrun, hall, rfl⟩ := plan_ok h
  have hb := booked_of_placeAll hpin (s.topologicalSort.sound _ _ hrun).nodup hall
  exact ⟨order, st, hrun, hall, rfl, hb, hb.values_eq.symm⟩

theorem overloads_planResult {req : PlanRequest} {order : List UUID} {st : PlanState} :
    (planResult req order st).overloads = overloadFlags st.idx := by
  have hflags : ∀ r ∈ overloadFlags st.idx, decide (r.kind = .overload) = true := by
    intro r hr
    obtain ⟨o, -, rfl⟩ := List.mem_map.mp hr
    rfl
  simp only [PlanResult.overloads, planResult, List.filter_append, List.filter_eq_self.mpr hflags]
  refine List.append_right_eq_self.mpr (List.filter_eq_nil_iff.mpr fun r hr => ?_)
  split at hr
  · split at hr
    · rw [List.mem_singleton.mp hr]
      simp
    · cases hr
  · cases hr

/-- A risk names the pair of an overload. -/
def RiskFlag.ListsOverload (r : RiskFlag) (p : UUID) (d : Date) : Prop :=
  r.kind = .overload ∧ r.personId = some p ∧ r.day = some d

theorem exists_overloadFlag {idx : CapacityIndex} {p : UUID} {d : Date} :
    (∃ r ∈ overloadFlags idx, r.ListsOverload p d) ↔
      (p, d) ∈ idx.used.keys ∧ idx.baseCapacity p d < idx.usedOn p d := by
  constructor
  · rintro ⟨r, hr, hl⟩
    obtain ⟨⟨q, e, u, b⟩, hm, rfl⟩ := List.mem_map.mp hr
    obtain ⟨-, hq, he⟩ := hl
    obtain rfl := Option.some.inj hq
    obtain rfl := Option.some.inj he
    obtain ⟨hk, rfl, rfl, hlt⟩ := mem_overloads.mp hm
    exact ⟨hk, hlt⟩
  · rintro ⟨hk, hlt⟩
    exact ⟨_, List.mem_map_of_mem (mem_overloads.mpr ⟨hk, rfl, rfl, hlt⟩), rfl, rfl, rfl⟩

/-- Booked past the ceiling, and booked at all. -/
def Overbooked (capacity : UUID → Date → Int) (load : List DayAllocation) (p : UUID) (d : Date) :
    Prop :=
  (∃ al ∈ load, al.personId = p ∧ al.day = d) ∧ capacity p d < hoursOn load p d

theorem plan_lists_overbooked {s : GreedySolver} {req : PlanRequest} {res : PlanResult}
    (hpin : req.Unpinned) (h : s.plan req = .ok res) {p : UUID} {d : Date}
    (hover : Overbooked (capacityOn req.people s.calendar req.dayOverrides)
      (req.existingAllocations ++ res.assignments.flatMap Assignment.allocations) p d) :
    ∃ r ∈ res.overloads, r.ListsOverload p d := by
  obtain ⟨order, st, -, -, rfl, hb, hvalues⟩ := plan_booked hpin h
  obtain ⟨⟨al, hal, rfl, rfl⟩, hlt⟩ := hover
  rw [hvalues] at hal hlt
  obtain ⟨r, hr, hl⟩ := exists_overloadFlag.mpr
    ⟨hb.keyed al hal, by rw [hb.base_eq, hb.usedOn_eq]; exact hlt⟩
  exact ⟨r, by rwa [overloads_planResult], hl⟩

theorem plan_overload_exceeds {s : GreedySolver} {req : PlanRequest} {res : PlanResult}
    (hpin : req.Unpinned) (h : s.plan req = .ok res) {r : RiskFlag} (hr : r ∈ res.overloads)
    {p : UUID} {d : Date} (hl : r.ListsOverload p d) :
    capacityOn req.people s.calendar req.dayOverrides p d <
      hoursOn (req.existingAllocations ++ res.assignments.flatMap Assignment.allocations) p d := by
  obtain ⟨order, st, -, -, rfl, hb, hvalues⟩ := plan_booked hpin h
  rw [overloads_planResult] at hr
  have hh := (exists_overloadFlag.mp ⟨r, hr, hl⟩).2
  rwa [hb.base_eq, hb.usedOn_eq, ← hvalues] at hh

/-- Everything filed was placed, under its task. -/
theorem filed_placed {cal : WorkingCalendar} {req : PlanRequest} {graph : Dag} {order : List UUID} {st : PlanState}
    (hpin : req.Unpinned) (h : placeAll cal req graph order (startState cal req) = .ok st) {k : UUID} {a : Assignment}
    (ha : st.assignments.get? k = some a) :
    ∃ t ∈ req.tasks, t.id = k ∧ ∃ earliest free person p, req.horizonStart ≤ earliest ∧
      Placed t earliest cal free (horizonLimit req) (allowedPeople req t) person p ∧ a = p.toAssignment k person := by
  refine placeAll_induction (motive := fun s => ∀ k a, s.assignments.get? k = some a → ∃ t ∈ req.tasks,
    t.id = k ∧ ∃ earliest free person p, req.horizonStart ≤ earliest ∧ Placed t earliest cal free (horizonLimit req)
      (allowedPeople req t) person p ∧ a = p.toAssignment k person) ?_ ?_ h k a ha
  · intro tid _ s s' hs hstep k a ha
    rcases placeTask_cases hstep with ⟨rfl, -⟩ | ⟨task, person, p, idx, -, htask, hpl, -, rfl⟩
    · exact hs k a ha
    · rw [OrdDict.get?_insert] at ha
      split at ha
      · rename_i hk
        obtain ⟨hmem, hid⟩ := mem_of_tasksById htask
        exact ⟨task, hmem, hid.trans hk.symm, _, _, person, p, horizonStart_le_earliestStart task _, hpl,
          hk ▸ (Option.some.inj ha).symm⟩
      · exact hs k a ha
  · intro k a ha
    rw [startState_unpinned hpin] at ha
    cases ha

theorem placed_of_plan {s : GreedySolver} {req : PlanRequest} {res : PlanResult} (hpin : req.Unpinned)
    (h : s.plan req = .ok res) {a : Assignment} (ha : a ∈ res.assignments) :
    ∃ t ∈ req.tasks, ∃ earliest free person p, req.horizonStart ≤ earliest ∧
      Placed t earliest s.calendar free (horizonLimit req) (allowedPeople req t) person p ∧
      a = p.toAssignment t.id person := by
  obtain ⟨order, st, -, hall, rfl⟩ := plan_ok h
  obtain ⟨k, -, hget⟩ := mem_planResult.mp ha
  obtain ⟨t, ht, rfl, hplaced⟩ := filed_placed hpin hall hget
  exact ⟨t, ht, hplaced⟩

end Planner
