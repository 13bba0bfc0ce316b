import Planner.ProposalTables

/-! Stored day overrides and new plans. The chat path leaves the overrides out,
so its plans respect them exactly where they change nothing. -/

namespace Planner

theorem overrideList_get? (s : Store) (p : UUID) (d : Date) :
    (OrdDict.ofList (s.overrideList.map fun o => ((o.personId, o.day), o.capacityH))).get? (p, d) =
      (s.dayOverrides.get? (p, d)).map OverrideRow.capacityH := by
  have he : s.overrideList.map (fun o => ((o.personId, o.day), o.capacityH)) =
      (s.dayOverrides.mapEntries fun _ row => row.capacityH).entries := by
    simp [Store.overrideList, OrdDict.mapEntries, Function.comp_def]
  rw [he, OrdDict.get?_ofList_entries, OrdDict.get?_mapEntries]

theorem capacityOn_of_override {s : Store} {people : List Person} {cal : WorkingCalendar} {p : UUID}
    {d : Date} {row : OverrideRow} (h : s.dayOverrides.get? (p, d) = some row) :
    capacityOn people cal s.overrideList p d = row.capacityH := by
  simp only [capacityOn, overrideList_get?, h, Option.map_some]

theorem capacityOn_of_no_override {s : Store} {people : List Person} {cal : WorkingCalendar}
    {p : UUID} {d : Date} (h : s.dayOverrides.get? (p, d) = none) :
    capacityOn people cal s.overrideList p d = capacityOn people cal [] p d := by
  simp only [capacityOn, overrideList_get?, h, Option.map_none]
  rfl

theorem plan_congr_overrides (s : GreedySolver) (req : PlanRequest) (os : List DayOverride)
    (h : capacityOn req.people s.calendar os =
      capacityOn req.people s.calendar req.dayOverrides) :
    s.plan { req with dayOverrides := os } = s.plan req := by
  have hstart : startState s.calendar { req with dayOverrides := os } = startState s.calendar req := by
    simp only [startState, CapacityIndex.init, h]
  have hall : ∀ graph order st, placeAll s.calendar { req with dayOverrides := os } graph order st =
      placeAll s.calendar req graph order st := by
    intro graph order
    induction order with
    | nil => exact fun _ => rfl
    | cons tid order ih =>
      intro st
      have hstep : placeTask s.calendar { req with dayOverrides := os } graph st tid =
          placeTask s.calendar req graph st tid := rfl
      simp only [placeAll, hstep, ih]
  simp only [GreedySolver.plan, hstart, hall]
  rfl

theorem Placement.spanning_allocs {allocs : List DayAllocation} {p : Placement}
    (h : Placement.spanning allocs = .ok p) : p.allocs = allocs := (Placement.spanning_ok h).1

section Placed

variable {task : Task} {earliest limit : Date} {cal : WorkingCalendar} {free : UUID → Date → Int}
  {allowed : List Person} {person : Person} {p : Placement}

theorem firstFit_working {ps : List UUID} {hours : Int} {fuel : Nat} :
    cal.isWorkingDay ((firstFit cal free ps hours fuel (firstWorkingDay cal earliest)).getD
      (firstWorkingDay cal earliest)) = true := by
  cases hf : firstFit cal free ps hours fuel (firstWorkingDay cal earliest) with
  | none => exact firstWorkingDay_working earliest
  | some d => exact (firstFit_eq_some_iff.mp hf).1.1

/-- Hours go on working days, and only tasks with hours get any. -/
theorem placementOf_allocs {pid : UUID} (h : placementOf task pid earliest cal free limit = .ok p) :
    ∀ al ∈ p.allocs, cal.isWorkingDay al.day = true ∧ (task.durationHours ≤ 0 → al.hours ≤ 0) := by
  unfold placementOf at h
  dsimp only at h
  split at h
  · rw [Placement.spanning_allocs h]
    intro al hal
    by_cases hpos : task.durationHours ≤ 0
    · have hneg : ¬ (0 : Int) < task.durationHours := by omega
      simp only [fillDays_of_nonpos hpos, hneg, if_false] at hal
      simp at hal
    · refine ⟨?_, fun hn => absurd hn hpos⟩
      split at hal
      · rcases List.mem_append.mp hal with hal | hal
        · exact (mem_fillDays hal).2.2.1
        · rw [List.mem_singleton.mp hal]
          exact firstWorkingDay_working earliest
      · exact (mem_fillDays hal).2.2.1
  · obtain rfl := Except.ok.inj h
    intro al hal
    simp only [Placement.onDay, List.map_cons, List.map_nil, List.mem_singleton] at hal
    subst hal
    exact ⟨firstFit_working, id⟩

theorem Placed.allocs_spec (h : Placed task earliest cal free limit allowed person p) :
    ∀ al ∈ p.allocs, cal.isWorkingDay al.day = true ∧ (task.durationHours ≤ 0 → al.hours ≤ 0) := by
  cases h with
  | window => simp [allocateWindow]
  | pair =>
    intro al hal
    obtain ⟨q, -, rfl⟩ := List.mem_map.mp hal
    exact ⟨firstFit_working, id⟩
  | single _ _ hwin =>
    obtain ⟨_, _, _, hp, _⟩ := hwin
    exact placementOf_allocs hp

end Placed

/-- Every stored override says what the solver assumes without it, or nobody is
there to plan with. -/
def Store.OverridesIdle (cal : WorkingCalendar) (s : Store) : Prop :=
  s.solverPeople = [] ∨ ∀ p d row, s.dayOverrides.get? (p, d) = some row →
    row.capacityH = capacityOn s.solverPeople cal [] p d

/-- The plan is the solver's answer to the request that carries the overrides. -/
def SolvedWithOverrides (solver : GreedySolver) (intent : AddProjectIntent) (today : Date) (s : Store)
    (result : AddProjectResult) : Prop :=
  ∀ template deps, s.projectTemplate intent.templateCode = some template →
    instantiate template s.nextId (List.range' (s.nextId + 1) template.tasks.length) =
      .ok (result.tasks, deps) →
    solver.plan (projectRequest s.solverPeople result.tasks deps today s.overrideList s.committedLoad
      intent.deadline) = .ok result.plan

/-- No hours on a day off while a later day of the horizon has room for the
task, on top of the load that was there when the task was placed. -/
def LeavesDaysOff (solver : GreedySolver) (today : Date) (s : Store) (result : AddProjectResult) :
    Prop :=
  ∀ pre a post, result.plan.assignments = pre ++ a :: post → ∀ t ∈ result.tasks, t.id = a.taskId →
    ∀ p d row, s.dayOverrides.get? (p, d) = some row → row.capacityH = 0 →
      (∃ e, d < e ∧ e ≤ today + horizonDays ∧
        0 ≤ hoursOn (s.committedLoad ++ pre.flatMap Assignment.allocations) p e ∧
        t.durationHours ≤ capacityOn s.solverPeople solver.calendar s.overrideList p e -
          hoursOn (s.committedLoad ++ pre.flatMap Assignment.allocations) p e) →
      ∀ al ∈ a.allocations, al.personId = p → al.day = d → al.hours ≤ 0

def RespectsOverrides (solver : GreedySolver) (intent : AddProjectIntent)
    (actor : Option PersonRecord) (today : Date) (sink : Option ProjectSink) (s : Store) : Prop :=
  ∀ result s', (buildAddProjectReply solver intent actor today sink).run s = (.ok (.ok result), s') →
    SolvedWithOverrides solver intent today s result ∧ LeavesDaysOff solver today s result

theorem capacityOn_of_idle {cal : WorkingCalendar} {s : Store}
    (h : ∀ p d row, s.dayOverrides.get? (p, d) = some row →
      row.capacityH = capacityOn s.solverPeople cal [] p d) :
    capacityOn s.solverPeople cal s.overrideList = capacityOn s.solverPeople cal [] := by
  funext p d
  cases hg : s.dayOverrides.get? (p, d) with
  | none => exact capacityOn_of_no_override hg
  | some row => rw [capacityOn_of_override hg, h p d row hg]

theorem capacityOn_nil {people : List Person} {cal : WorkingCalendar} {p : UUID} {d : Date} :
    capacityOn people cal [] p d = if cal.isWorkingDay d then
      (OrdDict.ofList (people.map fun q => (q.id, q.capacityH))).getD p 0 else 0 := by
  simp only [capacityOn, List.map_nil]
  cases cal.isWorkingDay d <;> rfl

theorem respects_of_idle {solver : GreedySolver} {intent : AddProjectIntent}
    {actor : Option PersonRecord} {today : Date} {sink : Option ProjectSink} {s : Store}
    (h : s.OverridesIdle solver.calendar) : RespectsOverrides solver intent actor today sink s := by
  intro result s' hrun
  rcases buildAddProjectReply_cases hrun with ⟨hne, -⟩ | ⟨result', template', hr, ht, hp, hprop⟩
  · exact absurd rfl (hne result)
  · obtain rfl : result = result' := Except.ok.inj (Except.ok.inj hr)
    have hidle := h.resolve_left hp
    have hcap := capacityOn_of_idle hidle
    obtain ⟨deps', hinst', hplan⟩ := hprop.planned
    refine ⟨fun template deps htemplate hinst => ?_, fun pre a post hsplit t ht hta p d row hg h0 => ?_⟩
    · obtain rfl : template' = template := Option.some.inj (ht.symm.trans htemplate)
      obtain rfl : deps' = deps := (Prod.mk.inj (Except.ok.inj (hinst'.symm.trans hinst))).2
      rw [← hplan]
      exact plan_congr_overrides solver (projectRequest s.solverPeople result.tasks deps' today []
        s.committedLoad intent.deadline) s.overrideList hcap
    · rintro ⟨e, -, -, hload, hroom⟩ al hal rfl rfl
      have ha : a ∈ result.plan.assignments := by simp [hsplit]
      obtain ⟨u, hu, _, _, _, _, pl, -, hpl, rfl⟩ := hprop.placed ha
      obtain rfl : t = u := List.inj_on_of_nodup_map hprop.recordable.tasks_nodup ht hu hta
      obtain ⟨hwork, hhours⟩ := hpl.allocs_spec al hal
      refine hhours ?_
      -- a working day of capacity zero means that the person never has any
      have hzero : (OrdDict.ofList (s.solverPeople.map fun q => (q.id, q.capacityH))).getD
          al.personId 0 = 0 := by
        have hh := hidle _ _ row hg
        rw [h0, capacityOn_nil, if_pos hwork] at hh
        exact hh.symm
      rw [hcap, capacityOn_nil, hzero, ite_self] at hroom
      omega

end Planner
