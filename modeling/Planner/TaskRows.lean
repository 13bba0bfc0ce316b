import Planner.ActTables

/-! The rows of a task beside its place in a payload. A proposal writes one row
for each person of an assignment, with the hours this person has in it. -/

namespace Planner

/-- The hours of one person. -/
def Assignment.hoursOf (a : Assignment) (p : UUID) : Int :=
  ((a.allocations.filter fun al => al.personId = p).map DayAllocation.hours).sum

/-- Works on the task; a window is held by its assignee. -/
def Assignment.Involves (a : Assignment) (p : UUID) : Prop :=
  if a.allocations = [] then p = a.personId else ∃ al ∈ a.allocations, al.personId = p

theorem getD_foldl_hours (as : List DayAllocation) (h : OrdDict UUID Int) (p : UUID) :
    (as.foldl (fun h al => h.insert al.personId (h.getD al.personId 0 + al.hours)) h).getD p 0 =
      h.getD p 0 + ((as.filter fun al => al.personId = p).map DayAllocation.hours).sum := by
  induction as generalizing h with
  | nil => simp
  | cons al as ih =>
    rw [List.foldl_cons, ih]
    by_cases hp : al.personId = p
    · subst hp
      simp [OrdDict.getD, Int.add_assoc]
    · have hp' : ¬ p = al.personId := fun he => hp he.symm
      simp [OrdDict.getD, OrdDict.get?_insert, hp, hp']

theorem mem_keys_foldl_hours {as : List DayAllocation} {h : OrdDict UUID Int} {p : UUID} :
    p ∈ (as.foldl (fun h al => h.insert al.personId (h.getD al.personId 0 + al.hours)) h).keys ↔
      (∃ al ∈ as, al.personId = p) ∨ p ∈ h.keys := by
  induction as generalizing h with
  | nil => simp
  | cons al as ih =>
    rw [List.foldl_cons, ih, OrdDict.mem_keys_insert, List.exists_mem_cons_iff, eq_comm (a := p),
      or_left_comm, or_assoc]

theorem mem_keys_hoursByPerson (t : Task) (a : Assignment) (p : UUID) :
    p ∈ (hoursByPerson t a).keys ↔ a.Involves p := by
  unfold hoursByPerson Assignment.Involves
  cases h : a.allocations with
  | nil => simp
  | cons al als =>
    rw [mem_keys_foldl_hours, if_neg (List.cons_ne_nil al als)]
    simp

theorem getD_hoursByPerson (t : Task) {a : Assignment} (h : a.allocations ≠ []) (p : UUID) :
    (hoursByPerson t a).getD p 0 = a.hoursOf p := by
  unfold hoursByPerson Assignment.hoursOf
  cases ha : a.allocations with
  | nil => exact absurd ha h
  | cons al als =>
    rw [getD_foldl_hours]
    simp [OrdDict.getD]

theorem mem_assignmentRows {tasks : List Task} {byTask : OrdDict UUID Assignment}
    {r : (UUID × UUID) × Int} : r ∈ assignmentRows tasks byTask ↔ ∃ t ∈ tasks, ∃ a,
      byTask.get? t.id = some a ∧ r.1.1 = t.id ∧ (hoursByPerson t a).get? r.1.2 = some r.2 := by
  simp only [assignmentRows, List.mem_flatMap, OrdDict.get?_eq_some_iff]
  refine exists_congr fun t => and_congr_right fun _ => ?_
  cases hb : byTask.get? t.id with
  | none => simp [← OrdDict.get?_eq_some_iff, hb]
  | some a =>
    simp only [← OrdDict.get?_eq_some_iff, hb, Option.some.injEq, List.mem_map, exists_eq_left']
    constructor
    · rintro ⟨e, he, rfl⟩
      exact ⟨rfl, OrdDict.get?_eq_some_iff.mpr he⟩
    · rintro ⟨ht, hr⟩
      exact ⟨(r.1.2, r.2), OrdDict.get?_eq_some_iff.mp hr, by rw [← ht]⟩

theorem nodup_assignmentRows {tasks : List Task} (h : (tasks.map Task.id).Nodup)
    (byTask : OrdDict UUID Assignment) : ((assignmentRows tasks byTask).map Prod.fst).Nodup := by
  induction tasks with
  | nil => simp [assignmentRows]
  | cons t tasks ih =>
    simp only [List.map_cons, List.nodup_cons] at h
    have hsplit : assignmentRows (t :: tasks) byTask =
        assignmentRows [t] byTask ++ assignmentRows tasks byTask := by
      simp [assignmentRows]
    rw [hsplit, List.map_append, List.nodup_append]
    refine ⟨?_, ih h.2, ?_⟩
    · simp only [assignmentRows, List.flatMap_cons, List.flatMap_nil, List.append_nil]
      cases byTask.get? t.id with
      | none => exact List.nodup_nil
      | some a =>
        have hkeys := (hoursByPerson t a).nodup_keys.map (Prod.mk_right_injective t.id)
        rw [List.map_map] at hkeys ⊢
        exact hkeys
    · rintro k hk k' hk' rfl
      obtain ⟨r, hr, rfl⟩ := List.mem_map.mp hk
      obtain ⟨r', hr', he⟩ := List.mem_map.mp hk'
      have hr := assignmentRows_task hr
      have hr' := assignmentRows_task hr'
      rw [he] at hr'
      simp only [List.map_cons, List.map_nil, List.mem_singleton] at hr
      exact h.1 (hr ▸ hr')

section Rows

variable {solver : GreedySolver} {intent : AddProjectIntent} {actor : Option PersonRecord} {people : List Person}
  {template : ProjectTemplate} {today : Date} {existing : List DayAllocation} {overrides : List DayOverride}
  {s s' : Store} {result : AddProjectResult}

/-- The rows that a proposal writes for a task come from its assignment. -/
theorem Proposed.mem_rows
    (h : Proposed solver intent actor people template today existing overrides s result s') {a : Assignment}
    (ha : a ∈ result.plan.assignments) : ∃ t ∈ result.tasks, t.id = a.taskId ∧ ∀ p hours,
      ((a.taskId, p), hours) ∈ assignmentRows result.tasks (scheduleOf result.plan.assignments) ↔
        (hoursByPerson t a).get? p = some hours := by
  obtain ⟨t, ht, hta⟩ := List.mem_map.mp (h.plan_tasks.2 a ha)
  have hsched : (scheduleOf result.plan.assignments).get? t.id = some a := by
    refine OrdDict.get?_ofList_of_mem ?_ (List.mem_map.mpr ⟨a, ha, by rw [hta]⟩)
    simpa [Function.comp_def] using h.plan_tasks.1
  refine ⟨t, ht, hta, fun p hours => ?_⟩
  constructor
  · intro hr
    obtain ⟨u, hu, b, hb, hru, hget⟩ := mem_assignmentRows.mp hr
    obtain rfl := List.inj_on_of_nodup_map h.recordable.tasks_nodup ht hu (hta.trans hru)
    obtain rfl := Option.some.inj (hsched.symm.trans hb)
    exact hget
  · exact fun hget => mem_assignmentRows.mpr ⟨t, ht, a, hsched, hta.symm, hget⟩

theorem Proposed.rows
    (h : Proposed solver intent actor people template today existing overrides s result s')
    (hs : s.WF) {a : Assignment} (ha : a ∈ result.plan.assignments) :
    ∃ t, ∀ p, s'.assignments.get? (a.taskId, p) = (hoursByPerson t a).get? p := by
  obtain ⟨t, ht, hta, hrows⟩ := h.mem_rows ha
  refine ⟨t, fun p => ?_⟩
  rw [h.assignments]
  cases hp : (hoursByPerson t a).get? p with
  | some hours =>
    exact OrdDict.get?_insertAll_of_mem _ _ (nodup_assignmentRows h.recordable.tasks_nodup _) ((hrows p hours).mpr hp)
  | none =>
    rw [OrdDict.get?_insertAll_of_not_mem, OrdDict.get?_eq_none_iff]
    · exact fun hk => h.recordable.tasks_new t ht (hta ▸ (hs.assignment_keys _ hk).1)
    · intro hm
      obtain ⟨⟨k, hours⟩, hr, rfl⟩ := List.mem_map.mp hm
      exact absurd (hp.symm.trans ((hrows p hours).mp hr)) nofun

end Rows

end Planner
