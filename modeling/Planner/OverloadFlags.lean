import Planner.PinnedHours

/-! The overload risks of a plan: one for every person and day whose hours, old
and new, exceed the ceiling of that day, and none besides. -/

namespace Planner

open CapacityIndex

section Flags

variable {idx : CapacityIndex}

theorem overload_pairs_sublist (entries : List ((UUID × Date) × Int)) :
    ((entries.filterMap fun e => if idx.baseCapacity e.1.1 e.1.2 < e.2 then
      some (e.1.1, e.1.2, e.2, idx.baseCapacity e.1.1 e.1.2) else none).map fun o => (o.1, o.2.1)).Sublist
        (entries.map Prod.fst) := by
  induction entries with
  | nil => exact List.Sublist.refl _
  | cons e entries ih =>
    by_cases hover : idx.baseCapacity e.1.1 e.1.2 < e.2
    · simp only [List.filterMap_cons, if_pos hover, List.map_cons]
      exact ih.cons_cons e.1
    · simp only [List.filterMap_cons, if_neg hover, List.map_cons]
      exact ih.cons e.1

theorem nodup_overloadFlags (idx : CapacityIndex) :
    ((overloadFlags idx).map fun r => (r.personId, r.day)).Nodup := by
  have hpairs : (idx.overloads.map fun o => (o.1, o.2.1)).Nodup :=
    (overload_pairs_sublist idx.used.entries).nodup idx.used.nodup_keys
  have hsome : Function.Injective fun k : UUID × Date => (some k.1, some k.2) := by
    rintro ⟨p, d⟩ ⟨q, e⟩ he
    obtain ⟨hp, hd⟩ := Prod.mk.inj he
    exact Prod.ext (Option.some.inj hp) (Option.some.inj hd)
  have hh := hpairs.map hsome
  rw [List.map_map] at hh
  rw [overloadFlags, List.map_map]
  exact hh

theorem listsOverload_of_mem {r : RiskFlag} (hr : r ∈ overloadFlags idx) : ∃ p d, r.ListsOverload p d := by
  obtain ⟨⟨p, d, u, b⟩, -, rfl⟩ := List.mem_map.mp hr
  exact ⟨p, d, rfl, rfl, rfl⟩

end Flags

section Ceilings

variable {people : List Person} {cal : WorkingCalendar} {overrides : List DayOverride}

theorem capacityOn_nonneg (hpeople : ∀ q ∈ people, 0 ≤ q.capacityH) (hoverrides : ∀ o ∈ overrides, 0 ≤ o.capacityH)
    (p : UUID) (d : Date) : 0 ≤ capacityOn people cal overrides p d := by
  unfold capacityOn
  dsimp only
  split
  · rename_i capacity hget
    obtain ⟨o, ho, he⟩ := List.mem_map.mp (OrdDict.mem_of_get?_ofList hget)
    obtain ⟨-, rfl⟩ := Prod.mk.inj he
    exact hoverrides o ho
  · split
    · exact le_rfl
    · rw [OrdDict.getD]
      cases hget : (OrdDict.ofList (people.map fun q => (q.id, q.capacityH))).get? p with
      | none => exact le_rfl
      | some capacity =>
        obtain ⟨q, hq, he⟩ := List.mem_map.mp (OrdDict.mem_of_get?_ofList hget)
        obtain ⟨-, rfl⟩ := Prod.mk.inj he
        exact hpeople q hq

end Ceilings

/-- The overload risks are exactly the pairs past their ceiling, each once. -/
theorem overloads_exact (s : GreedySolver) (req : PlanRequest) (res : PlanResult)
    (hpeople : ∀ q ∈ req.people, 0 ≤ q.capacityH) (hoverrides : ∀ o ∈ req.dayOverrides, 0 ≤ o.capacityH)
    (hids : ((req.tasks.filter fun t => t.pinned?.isSome).map Task.id).Nodup) (h : s.plan req = .ok res) :
    (res.overloads.map fun r => (r.personId, r.day)).Nodup ∧
      (∀ r ∈ res.overloads, ∃ p d, r.ListsOverload p d) ∧
      ∀ p d, (∃ r ∈ res.overloads, r.ListsOverload p d) ↔
        capacityOn req.people s.calendar req.dayOverrides p d <
          hoursOn (req.existingAllocations ++ res.assignments.flatMap Assignment.allocations) p d := by
  obtain ⟨order, st, rfl, hbase, hused, hkeyed⟩ := plan_usedOn hids h
  rw [overloads_planResult]
  refine ⟨nodup_overloadFlags st.idx, fun r hr => listsOverload_of_mem hr, fun p d => ?_⟩
  rw [exists_overloadFlag, hbase, hused]
  refine and_iff_right_of_imp fun hover => ?_
  -- hours past a ceiling that is not negative were booked by somebody
  have hceiling : 0 ≤ capacityOn req.people s.calendar req.dayOverrides p d :=
    capacityOn_nonneg hpeople hoverrides p d
  by_contra hkey
  have hzero : hoursOn (req.existingAllocations ++
      (planResult req order st).assignments.flatMap Assignment.allocations) p d = 0 := by
    apply hoursOn_eq_zero
    rintro al hal ⟨rfl, rfl⟩
    exact hkey (hkeyed al hal)
  omega

/-- A finished task that took all of Monday and half as much again. -/
def overtimeTask : Task where
  id := 7
  name := "Монтаж"
  durationHours := 12
  allowedPersonIds := [1]
  status := .done
  fixedStart := some (Date.ofYmd 2026 6 1)
  fixedAssigneeId := some 1

def overtimeRequest : PlanRequest where
  people := [⟨1, "Anna", 8⟩]
  tasks := [overtimeTask, { id := 8, name := "Титры", durationHours := 12, allowedPersonIds := [1], isSplittable := true }]
  dependencies := []
  horizonStart := Date.ofYmd 2026 6 1
  dayOverrides := [⟨1, Date.ofYmd 2026 6 3, 2⟩]

theorem overloads_exact_overtime : ∃ res, GreedySolver.onWeekdays.plan overtimeRequest = .ok res ∧
    (res.overloads.map fun r => (r.personId, r.day)).Nodup ∧
    (∀ r ∈ res.overloads, ∃ p d, r.ListsOverload p d) ∧
    ∀ p d, (∃ r ∈ res.overloads, r.ListsOverload p d) ↔
      capacityOn overtimeRequest.people GreedySolver.onWeekdays.calendar overtimeRequest.dayOverrides p d <
        hoursOn (overtimeRequest.existingAllocations ++ res.assignments.flatMap Assignment.allocations) p d :=
  ⟨_, rfl, overloads_exact GreedySolver.onWeekdays overtimeRequest _ (by decide) (by decide) (by decide) rfl⟩

/-- Two finished tasks under one id: both take capacity, and the plan shows the
second only. -/
def twiceFiledRequest : PlanRequest where
  people := [⟨1, "Anna", 8⟩]
  tasks := [overtimeTask, { overtimeTask with durationHours := 4, fixedStart := some (Date.ofYmd 2026 6 2) }]
  dependencies := []
  horizonStart := Date.ofYmd 2026 6 1

theorem hidden_overload_flagged : ∃ (s : GreedySolver) (req : PlanRequest) (res : PlanResult),
    (∀ q ∈ req.people, 0 ≤ q.capacityH) ∧ (∀ o ∈ req.dayOverrides, 0 ≤ o.capacityH) ∧ s.plan req = .ok res ∧
    ∃ p d, (∃ r ∈ res.overloads, r.ListsOverload p d) ∧
      ¬ capacityOn req.people s.calendar req.dayOverrides p d <
        hoursOn (req.existingAllocations ++ res.assignments.flatMap Assignment.allocations) p d := by
  refine ⟨GreedySolver.onWeekdays, twiceFiledRequest, _, by decide, by decide, rfl, 1, Date.ofYmd 2026 6 1, ?_, ?_⟩
  · exact ⟨_, List.mem_cons_self, rfl, rfl, rfl⟩
  · decide

end Planner
