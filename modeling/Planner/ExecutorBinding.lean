import Planner.PlainPlan
import Planner.WellPlaced

/-! The executor binding of a task is kept as far as the pool knows the people of
it: without any of them the whole pool may take the task, and a pair needs two. -/

namespace Planner

/-- Two different people are bound. -/
def Task.BindsTwo (t : Task) : Prop := ∃ p ∈ t.allowedPersonIds, ∃ q ∈ t.allowedPersonIds, p ≠ q

/-- Only bound people work on the task, and on a required pair two of them. -/
structure Task.BindingKept (t : Task) (a : Assignment) : Prop where
  person : a.personId ∈ t.allowedPersonIds
  allocations : ∀ al ∈ a.allocations, al.personId ∈ t.allowedPersonIds
  pair : t.pairMode = .required → t.BindsTwo → ∃ al ∈ a.allocations, ∃ al' ∈ a.allocations, al.personId ≠ al'.personId

/-- The bound people who are in the pool, in priority order. -/
def PlanRequest.boundIds (req : PlanRequest) (t : Task) : List UUID :=
  t.allowedPersonIds.filter fun pid => pid ∈ req.people.map Person.id

/-- Somebody who is bound is in the pool; for a pair two are, the first two there
are different people, and it is no window. -/
structure PlanRequest.BindingStands (req : PlanRequest) (t : Task) : Prop where
  somebody : req.boundIds t ≠ []
  pair : t.pairMode = .required → t.BindsTwo →
    t.durationIsWindow = false ∧ ∃ p q rest, req.boundIds t = p :: q :: rest ∧ p ≠ q

section Pool

variable {req : PlanRequest} {t : Task}

theorem peopleById_some {pid : UUID} {p : Person} (h : (peopleById req).get? pid = some p) : p.id = pid := by
  obtain ⟨q, -, he⟩ := List.mem_map.mp (OrdDict.mem_of_get?_ofList h)
  obtain ⟨rfl, rfl⟩ := Prod.mk.inj he
  rfl

theorem peopleById_isSome {pid : UUID} : ((peopleById req).get? pid).isSome ↔ pid ∈ req.people.map Person.id := by
  rw [← OrdDict.mem_keys, peopleById, OrdDict.mem_keys_ofList, List.map_map]
  rfl

theorem map_id_bound (ids : List UUID) :
    (ids.filterMap fun pid => (peopleById req).get? pid).map Person.id =
      ids.filter fun pid => pid ∈ req.people.map Person.id := by
  induction ids with
  | nil => rfl
  | cons pid ids ih =>
    cases hp : (peopleById req).get? pid with
    | none =>
      have hout : pid ∉ req.people.map Person.id := by
        rw [← peopleById_isSome, hp]
        simp
      rw [List.filterMap_cons_none hp, List.filter_cons_of_neg (by simpa using hout), ih]
    | some p =>
      have hin : pid ∈ req.people.map Person.id := by
        rw [← peopleById_isSome, hp]
        rfl
      rw [List.filterMap_cons_some hp, List.filter_cons_of_pos (by simpa using hin), List.map_cons, ih,
        peopleById_some hp]

/-- Somebody bound is there: the candidates are the bound people of the pool. -/
theorem allowedPeople_ids (h : req.boundIds t ≠ []) : (allowedPeople req t).map Person.id = req.boundIds t := by
  have hids := @map_id_bound req t.allowedPersonIds
  unfold allowedPeople
  split
  · rename_i hnil
    rw [hnil] at hids
    exact absurd hids.symm h
  · exact hids

/-- Nobody bound is there, and the task goes to a stranger. -/
theorem allowedPeople_stranger (h : req.boundIds t = []) {person : Person} (hp : person ∈ allowedPeople req t) :
    person.id ∉ t.allowedPersonIds := by
  intro hbound
  have hin : person.id ∈ req.people.map Person.id := List.mem_map_of_mem (allowedPeople_subset hp)
  have hmem : person.id ∈ req.boundIds t := List.mem_filter.mpr ⟨hbound, by simpa using hin⟩
  rw [h] at hmem
  cases hmem

theorem mem_binding_iff {person : Person} (hp : person ∈ allowedPeople req t) :
    person.id ∈ t.allowedPersonIds ↔ req.boundIds t ≠ [] := by
  constructor
  · exact fun hbound hnil => allowedPeople_stranger hnil hp hbound
  · intro hsome
    have hmem : person.id ∈ req.boundIds t := by
      rw [← allowedPeople_ids hsome]
      exact List.mem_map_of_mem hp
    exact List.mem_of_mem_filter hmem

end Pool

section Placing

variable {task : Task} {pid : UUID} {earliest : Date} {cal : WorkingCalendar} {free : UUID → Date → Int}
  {limit : Date} {person : Person} {p : Placement} {req : PlanRequest}

theorem placementOf_person (h : placementOf task pid earliest cal free limit = .ok p) :
    ∀ al ∈ p.allocs, al.personId = pid := by
  cases hs : task.isSplittable with
  | true => exact fun al hal => (placementOf_hours (positive_of_split hs h) h al hal).2
  | false =>
    rw [placementOf_whole hs] at h
    obtain rfl := Except.ok.inj h
    intro al hal
    rw [List.mem_singleton.mp hal]

/-- The first two of the candidates work on one day. -/
theorem pair_keepsBinding_iff {task : Task} {req : PlanRequest} {p1 p2 : Person} {rest : List Person}
    (hw : task.durationIsWindow = false) (ha : allowedPeople req task = p1 :: p2 :: rest) (day : Date) (hours : Int)
    (tid : UUID) : task.BindingKept ((Placement.onDay [p1.id, p2.id] day hours).toAssignment tid p1) ↔
      req.BindingStands task := by
  have hfirst : p1 ∈ allowedPeople req task := by simp [ha]
  have hsecond : p2 ∈ allowedPeople req task := by simp [ha]
  have hallocs : ∀ al, al ∈ ((Placement.onDay [p1.id, p2.id] day hours).toAssignment tid p1).allocations ↔
      al = ⟨p1.id, day, hours⟩ ∨ al = ⟨p2.id, day, hours⟩ := fun al => by
    simp only [Placement.toAssignment, Placement.onDay, List.map_cons, List.map_nil, List.mem_cons,
      List.not_mem_nil, or_false]
  constructor
  · intro hkept
    have hsome := (mem_binding_iff hfirst).mp hkept.person
    refine ⟨hsome, fun hm htwo => ⟨hw, p1.id, p2.id, rest.map Person.id, ?_, ?_⟩⟩
    · rw [← allowedPeople_ids hsome, ha]
      rfl
    · obtain ⟨al, hal, al', hal', hne⟩ := hkept.pair hm htwo
      rcases (hallocs al).mp hal with rfl | rfl <;> rcases (hallocs al').mp hal' with rfl | rfl
      · exact absurd rfl hne
      · exact hne
      · exact hne.symm
      · exact absurd rfl hne
  · intro hstands
    have hone := (mem_binding_iff hfirst).mpr hstands.somebody
    have htwo' := (mem_binding_iff hsecond).mpr hstands.somebody
    refine ⟨hone, fun al hal => ?_, fun hm htwo => ?_⟩
    · rcases (hallocs al).mp hal with rfl | rfl
      · exact hone
      · exact htwo'
    · obtain ⟨-, x, y, others, hids, hne⟩ := hstands.pair hm htwo
      rw [← allowedPeople_ids hstands.somebody, ha] at hids
      simp only [List.map_cons, List.cons.injEq] at hids
      obtain ⟨rfl, rfl, -⟩ := hids
      exact ⟨_, (hallocs _).mpr (Or.inl rfl), _, (hallocs _).mpr (Or.inr rfl), hne⟩

/-- Whatever the mode, the people of a placement are bound if and only if
somebody bound was there; only a pair of two is given to two. -/
theorem Placed.keepsBinding_iff
    (h : Placed task earliest cal free limit (allowedPeople req task) person p) (tid : UUID) :
    task.BindingKept (p.toAssignment tid person) ↔ req.BindingStands task := by
  cases h with
  | window hw ha =>
    have hfirst : person ∈ allowedPeople req task := by simp [ha]
    constructor
    · intro hkept
      refine ⟨(mem_binding_iff hfirst).mp hkept.person, fun hm htwo => ?_⟩
      obtain ⟨al, hal, -⟩ := hkept.pair hm htwo
      cases hal
    · intro hstands
      refine ⟨(mem_binding_iff hfirst).mpr hstands.somebody, fun al hal => ?_, fun hm htwo => ?_⟩
      · cases hal
      · rw [(hstands.pair hm htwo).1] at hw
        cases hw
  | pair hw hm ha => exact pair_keepsBinding_iff hw ha _ _ tid
  | single hw hm hwin =>
    obtain ⟨pre, post, ha, hp, -⟩ := hwin
    have hmem : person ∈ allowedPeople req task := by simp [ha]
    have hown := placementOf_person hp
    constructor
    · intro hkept
      refine ⟨(mem_binding_iff hmem).mp hkept.person, fun hm htwo => ?_⟩
      obtain ⟨al, hal, al', hal', hne⟩ := hkept.pair hm htwo
      exact absurd ((hown al hal).trans (hown al' hal').symm) hne
    · intro hstands
      have hbound := (mem_binding_iff hmem).mpr hstands.somebody
      refine ⟨hbound, fun al hal => hown al hal ▸ hbound, fun hreq htwo => ?_⟩
      obtain ⟨-, x, y, others, hids, -⟩ := hstands.pair hreq htwo
      have hshort := hm hreq
      have hlen : (allowedPeople req task).length = (req.boundIds task).length := by
        rw [← allowedPeople_ids hstands.somebody, List.length_map]
      rw [hlen, hids, List.length_cons, List.length_cons] at hshort
      omega

end Placing

/-- A movable task that shares its id with none has an assignment, and what its
turn assigns keeps the binding if and only if the binding stands in the pool. -/
theorem plan_keeps_binding_iff (s : GreedySolver) (req : PlanRequest) (res : PlanResult) (h : s.plan req = .ok res)
    (t : Task) (ht : t ∈ req.tasks) (hp : t.pinned? = none) (_ : t.allowedPersonIds ≠ []) :
    ((∀ u ∈ req.tasks, u.id = t.id → u = t) → ∃ before after, PlacementTurn s req res t before after) ∧
      ∀ before after, PlacementTurn s req res t before after →
        (∃ a ∈ res.assignments, a.taskId = t.id) ∧
        ∀ a ∈ res.assignments, a.taskId = t.id → (t.BindingKept a ↔ req.BindingStands t) := by
  refine ⟨exists_placementTurn h ht hp, fun before after hturn => ?_⟩
  obtain ⟨person, p, idx, hpl, -, rfl⟩ := hturn.placed
  have hfiled := hturn.filed (OrdDict.get?_insert_self before.assignments t.id (p.toAssignment t.id person))
  refine ⟨⟨_, hfiled, rfl⟩, fun a ha hid => ?_⟩
  obtain rfl := List.inj_on_of_nodup_map (plan_taskIds h).1 ha hfiled hid
  exact hpl.keepsBinding_iff t.id

theorem plan_keeps_binding_iff_review : ∃ res, GreedySolver.onWeekdays.plan reviewRequest = .ok res ∧
    ∀ t ∈ reviewRequest.tasks,
      ((∀ u ∈ reviewRequest.tasks, u.id = t.id → u = t) →
        ∃ before after, PlacementTurn GreedySolver.onWeekdays reviewRequest res t before after) ∧
      ∀ before after, PlacementTurn GreedySolver.onWeekdays reviewRequest res t before after →
        (∃ a ∈ res.assignments, a.taskId = t.id) ∧
        ∀ a ∈ res.assignments, a.taskId = t.id → (t.BindingKept a ↔ reviewRequest.BindingStands t) := by
  have hbound : ∀ t ∈ reviewRequest.tasks, t.pinned? = none ∧ t.allowedPersonIds ≠ [] := by decide
  exact ⟨_, rfl, fun t ht => plan_keeps_binding_iff GreedySolver.onWeekdays reviewRequest _ rfl t ht (hbound t ht).1
    (hbound t ht).2⟩

/-- The one who is bound has left; of the two of the pair one has. -/
def leaverRequest : PlanRequest where
  people := [⟨1, "Анна", 8⟩, ⟨2, "Борис", 8⟩]
  tasks := [{ id := 7, name := "Монтаж", durationHours := 8, allowedPersonIds := [3] },
    { id := 8, name := "Вычитка", durationHours := 8, allowedPersonIds := [2, 3], pairMode := .required }]
  dependencies := []
  horizonStart := Date.ofYmd 2026 6 1

theorem leaver_replaced : ∃ res, GreedySolver.onWeekdays.plan leaverRequest = .ok res ∧
    (∃ t ∈ leaverRequest.tasks, t.pinned? = none ∧ t.allowedPersonIds ≠ [] ∧
      ∃ a ∈ res.assignments, a.taskId = t.id ∧ a.personId ∉ t.allowedPersonIds) ∧
    ∃ t ∈ leaverRequest.tasks, t.pinned? = none ∧ t.pairMode = .required ∧ t.BindsTwo ∧
      ∃ a ∈ res.assignments, a.taskId = t.id ∧ ∀ al ∈ a.allocations, al.personId = 2 := by
  refine ⟨_, rfl, ⟨_, List.mem_cons_self, rfl, by decide, ⟨7, 1, Date.ofYmd 2026 6 1, Date.ofYmd 2026 6 1,
    [⟨1, Date.ofYmd 2026 6 1, 8⟩]⟩, ?_, rfl, by decide⟩,
    ⟨_, List.mem_cons_of_mem _ List.mem_cons_self, rfl, rfl, ⟨2, by decide, 3, by decide, by decide⟩,
      ⟨8, 2, Date.ofYmd 2026 6 1, Date.ofYmd 2026 6 1, [⟨2, Date.ofYmd 2026 6 1, 8⟩]⟩, ?_, rfl, by decide⟩⟩
  · decide +kernel
  · decide +kernel

end Planner
