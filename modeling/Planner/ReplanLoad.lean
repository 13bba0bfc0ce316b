import Planner.Lib.FirstFit
import Planner.ReplanRequest

/-! A replan as a first fit packing: every committed task goes, with all its
hours, on one day of the person it is committed to. -/

namespace Planner

open CapacityIndex

/-- The days of a person that a search from `today` looks at. -/
def lookahead (cal : WorkingCalendar) (today : Date) (personId : UUID) : List (UUID × Date) :=
  ((List.range' (firstWorkingDay cal today) (max 1 (today + horizonDays + 1 - firstWorkingDay cal today))).filter
    cal.isWorkingDay).map fun day => (personId, day)

theorem firstWorkingDay_mem_lookahead (cal : WorkingCalendar) (today : Date) (personId : UUID) :
    (personId, firstWorkingDay cal today) ∈ lookahead cal today personId := by
  refine List.mem_map_of_mem (List.mem_filter.mpr ⟨?_, firstWorkingDay_working today⟩)
  rw [List.mem_range'_1]
  omega

/-- A task that is not spread, bound to one person. -/
def wholeTask (cal : WorkingCalendar) (today : Date) (personId : UUID) (hours : Int) :
    FirstFit.Item (UUID × Date) where
  size := hours
  bins := lookahead cal today personId
  dumpBin := (personId, firstWorkingDay cal today)
  dumpBin_mem := firstWorkingDay_mem_lookahead cal today personId

/-- The solver's search for one day is first fit. -/
theorem fit_wholeTask (cal : WorkingCalendar) (idx : CapacityIndex) (today : Date) (personId : UUID)
    (hours : Int) :
    ((wholeTask cal today personId hours).fit (fun b => idx.baseCapacity b.1 b.2)
        fun b => idx.usedOn b.1 b.2).getD (personId, firstWorkingDay cal today) =
      (personId, (firstFit cal idx.free [personId] hours
        (today + horizonDays + 1 - firstWorkingDay cal today) (firstWorkingDay cal today)).getD
          (firstWorkingDay cal today)) := by
  have hsearch : ∀ l : List Date, (((l.filter cal.isWorkingDay).map fun day => (personId, day)).find? fun b =>
      decide (idx.usedOn b.1 b.2 + hours ≤ idx.baseCapacity b.1 b.2)) =
      (l.find? fun d => cal.isWorkingDay d && [personId].all fun p => hours ≤ idx.free p d).map
        fun day => (personId, day) := by
    intro l
    rw [List.find?_map, List.find?_filter]
    congr 2
    funext d
    have he : idx.usedOn personId d + hours ≤ idx.baseCapacity personId d ↔ hours ≤ idx.free personId d := by
      rw [free]
      omega
    simp [he]
  have hfit : (wholeTask cal today personId hours).fit (fun b => idx.baseCapacity b.1 b.2)
      (fun b => idx.usedOn b.1 b.2) = ((List.range' (firstWorkingDay cal today)
        (max 1 (today + horizonDays + 1 - firstWorkingDay cal today))).find? fun d =>
          cal.isWorkingDay d && [personId].all fun p => hours ≤ idx.free p d).map fun day => (personId, day) :=
    hsearch _
  rw [hfit, firstFit]
  by_cases hfuel : today + horizonDays + 1 - firstWorkingDay cal today = 0
  · -- the whole horizon is off: both take the first working day after it
    rw [hfuel, Nat.max_zero, List.range'_one]
    cases hf : List.find? (fun d => cal.isWorkingDay d && [personId].all fun p => hours ≤ idx.free p d)
        [firstWorkingDay cal today] with
    | none => rfl
    | some d =>
      obtain rfl := List.mem_singleton.mp (List.mem_of_find?_eq_some hf)
      rfl
  · rw [max_eq_right (Nat.one_le_iff_ne_zero.mpr hfuel)]
    cases List.find? _ _ <;> rfl

theorem overloads_eq_nil_iff {idx : CapacityIndex} (hcap : ∀ p d, 0 ≤ idx.baseCapacity p d) :
    idx.overloads = [] ↔ ∀ p d, idx.usedOn p d ≤ idx.baseCapacity p d := by
  rw [List.eq_nil_iff_forall_not_mem]
  refine ⟨fun h p d => ?_, fun h o ho => ?_⟩
  · by_cases hk : (p, d) ∈ idx.used.keys
    · exact not_lt.mp fun hlt => h _ (mem_overloads.mpr ⟨hk, rfl, rfl, hlt⟩)
    · rw [usedOn_eq_zero hk]
      exact hcap p d
  · obtain ⟨p, d, u, b⟩ := o
    obtain ⟨-, rfl, rfl, hlt⟩ := mem_overloads.mp ho
    exact absurd hlt (not_lt.mpr (h p d))

theorem planResult_overloads_eq_nil {req : PlanRequest} {order : List UUID} {st : PlanState} :
    (planResult req order st).overloads = [] ↔ st.idx.overloads = [] := by
  rw [List.eq_nil_iff_forall_not_mem]
  simp only [overloads_planResult]
  rw [← List.eq_nil_iff_forall_not_mem, overloadFlags, List.map_eq_nil_iff]

namespace Store

/-- The ceiling of a person's day, overrides included. -/
def ceiling (s : Store) (cal : WorkingCalendar) (b : UUID × Date) : Int :=
  capacityOn s.solverPeople cal s.overrideList b.1 b.2

/-- The committed tasks in the given order, each one whole. -/
def wholeTasks (s : Store) (cal : WorkingCalendar) (today : Date) (order : List UUID) :
    List (FirstFit.Item (UUID × Date)) :=
  order.filterMap fun tid => (s.rebuiltAssignments.find? fun a => a.taskId = tid).map fun a =>
    wholeTask cal today a.personId a.hours

/-- The committed tasks as a graph; nothing links them. -/
def committedGraph (s : Store) : Dag := buildDag (s.rebuiltAssignments.map s.rebuiltTask) []

variable {s : Store} {today : Date} {req : PlanRequest}

theorem find_rebuilt (hs : s.WF) {a : Assignment} (ha : a ∈ s.rebuiltAssignments) :
    (s.rebuiltAssignments.find? fun b => b.taskId = a.taskId) = some a := by
  have hfound : (s.rebuiltAssignments.find? fun b => b.taskId = a.taskId).isSome :=
    List.find?_isSome.mpr ⟨a, ha, by simp⟩
  obtain ⟨b, hb⟩ := Option.isSome_iff_exists.mp hfound
  have hba : b.taskId = a.taskId := by simpa using List.find?_some hb
  have hmem := List.mem_of_find?_eq_some hb
  rw [hb, hs.committed_inj (List.mem_of_mem_filter hmem) (List.mem_of_mem_filter ha) hba]

theorem Grown.replan_graph (hs : s.Grown) (h : s.replanRequest today = some req) :
    buildDag req.tasks req.dependencies = s.committedGraph := by
  rw [(hs.replan_plain h).no_deps]
  obtain ⟨-, rfl⟩ := replanRequest_some h
  rfl

/-- Everyone who works on a committed task is in the solver's pool. -/
def Staffed (s : Store) : Prop := ∀ a ∈ s.committedAssignments, a.personId ∈ s.solverPeople.map Person.id

theorem mem_replanTasks (h : s.replanRequest today = some req) {t : Task} :
    t ∈ req.tasks ↔ ∃ a ∈ s.rebuiltAssignments, s.rebuiltTask a = t := by
  obtain ⟨-, rfl⟩ := replanRequest_some h
  exact List.mem_map

variable {cal : WorkingCalendar} {done : List UUID} {tid : UUID} {mid mid' : PlanState}

/-- What the solver has booked after the turns of `done`. -/
structure Refilled (s : Store) (cal : WorkingCalendar) (today : Date) (req : PlanRequest) (done : List UUID)
    (mid : PlanState) : Prop where
  booked : Booked cal req done mid
  load : ∀ b, mid.idx.usedOn b.1 b.2 =
    FirstFit.fill (s.ceiling cal) (s.wholeTasks cal today done) (fun _ => 0) b

theorem Refilled.base_eq (h : s.Refilled cal today req done mid) (hreq : s.replanRequest today = some req) :
    (fun b => mid.idx.baseCapacity b.1 b.2) = s.ceiling cal := by
  obtain ⟨-, rfl⟩ := replanRequest_some hreq
  rw [h.booked.base_eq]
  rfl

theorem Grown.refilled_turn (hs : s.Grown) (hstaffed : s.Staffed) (h : s.replanRequest today = some req)
    (hmid : s.Refilled cal today req done mid) (hnew : tid ∉ done)
    (hstep : placeTask cal req (buildDag req.tasks req.dependencies) mid tid = .ok mid') :
    s.Refilled cal today req (done ++ [tid]) mid' := by
  have hplain := hs.replan_plain h
  refine ⟨hmid.booked.step hnew hstep, fun b => ?_⟩
  rw [wholeTasks, List.filterMap_append, List.filterMap_cons, List.filterMap_nil]
  rcases placeTask_cases hstep with ⟨rfl, hk | hn⟩ | ⟨task, person, p, idx, -, htask, hpl, hl, rfl⟩
  · exact absurd (hmid.booked.keys_subset tid hk) hnew
  · have hnone : (s.rebuiltAssignments.find? fun a => a.taskId = tid) = none := by
      refine List.find?_eq_none.mpr fun a ha he => ?_
      have hget := tasksById_get? hplain.ids ((mem_replanTasks h).mpr ⟨a, ha, rfl⟩)
      rw [show (s.rebuiltTask a).id = tid from of_decide_eq_true he, hn] at hget
      cases hget
    simp only [hnone, Option.map_none, List.append_nil]
    exact hmid.load b
  · obtain ⟨ht, rfl⟩ := mem_of_tasksById htask
    obtain ⟨a, ha, rfl⟩ := (mem_replanTasks h).mp ht
    have hperson : person.id = a.personId := by
      refine allowedPeople_bound ?_ rfl hpl.person_mem
      obtain ⟨-, rfl⟩ := replanRequest_some h
      exact hstaffed a (List.mem_of_mem_filter ha)
    have hload : FirstFit.fill (s.ceiling cal) (s.wholeTasks cal today done) (fun _ => 0) =
        fun b => mid.idx.usedOn b.1 b.2 := funext fun b => (hmid.load b).symm
    have hday := hpl.plain (hplain.plain _ ht)
    rw [hplain.no_deps, earliestStart_of_no_deps, hperson] at hday
    have hstart : req.horizonStart = today := by
      obtain ⟨-, rfl⟩ := replanRequest_some h
      rfl
    rw [horizonLimit, hstart] at hday
    have hfit := fit_wholeTask cal mid.idx today a.personId a.hours
    rw [hmid.base_eq h, ← hload] at hfit
    have hlast : FirstFit.fill (s.ceiling cal) (s.wholeTasks cal today done ++
        [wholeTask cal today a.personId a.hours]) (fun _ => 0) b =
        (wholeTask cal today a.personId a.hours).put (fun c => mid.idx.usedOn c.1 c.2) (a.personId, p.startDate) b := by
      rw [FirstFit.fill_snoc]
      change FirstFit.Item.put _ _ (((wholeTask cal today a.personId a.hours).fit _ _).getD
        (a.personId, firstWorkingDay cal today)) b = _
      rw [hfit, hload, hday]
      rfl
    simp only [show (s.rebuiltTask a).id = a.taskId from rfl, find_rebuilt hs.wf ha, Option.map_some]
    refine Eq.trans ?_ hlast.symm
    have halloc : p.allocs = [⟨a.personId, p.startDate, a.hours⟩] := by
      rw [hday]
      rfl
    obtain ⟨q, d⟩ := b
    rw [usedOn_occupy, hl.usedOn, halloc, hoursOn_cons, hoursOn_nil, Int.add_zero, FirstFit.Item.put]
    by_cases hb : (q, d) = (a.personId, p.startDate)
    · obtain ⟨rfl, rfl⟩ := Prod.mk.inj hb
      rw [if_pos ⟨rfl, rfl⟩, Function.update_self]
      rfl
    · rw [if_neg fun hh => hb (Prod.ext hh.1.symm hh.2.symm), Function.update_of_ne hb, Int.add_zero]

theorem Grown.refilled (hs : s.Grown) (hstaffed : s.Staffed) (h : s.replanRequest today = some req)
    {order : List UUID} {st : PlanState} (hnodup : order.Nodup)
    (hall : placeAll cal req (buildDag req.tasks req.dependencies) order (startState cal req) = .ok st) :
    s.Refilled cal today req order st := by
  have hplain := hs.replan_plain h
  refine placeAll_scan (motive := s.Refilled cal today req) (fun done tid rest mid mid' he hmid hstep => ?_)
    ⟨booked_start hplain.unpinned, fun b => ?_⟩ hall
  · refine hs.refilled_turn hstaffed h hmid (fun hm => ?_) hstep
    exact (List.nodup_append.mp (he ▸ hnodup)).2.2 tid hm tid List.mem_cons_self rfl
  · rw [(booked_start hplain.unpinned).usedOn_eq, hplain.no_load, startState_unpinned hplain.unpinned]
    rfl

/-- The plan lists no overload iff no day is filled past its ceiling. -/
theorem Refilled.overloads_iff (h : s.Refilled cal today req done mid) (hreq : s.replanRequest today = some req)
    (hceil : ∀ b, 0 ≤ s.ceiling cal b) : (planResult req done mid).overloads = [] ↔
      ∀ b, FirstFit.fill (s.ceiling cal) (s.wholeTasks cal today done) (fun _ => 0) b ≤ s.ceiling cal b := by
  have hbase : ∀ p d, mid.idx.baseCapacity p d = s.ceiling cal (p, d) := fun p d =>
    congrFun (h.base_eq hreq) (p, d)
  rw [planResult_overloads_eq_nil, overloads_eq_nil_iff fun p d => hbase p d ▸ hceil _]
  constructor
  · intro hle b
    rw [← h.load, ← hbase]
    exact hle b.1 b.2
  · intro hle p d
    rw [hbase, h.load (p, d)]
    exact hle (p, d)

theorem mem_wholeTasks {order : List UUID} {item : FirstFit.Item (UUID × Date)}
    (h : item ∈ s.wholeTasks cal today order) :
    ∃ a ∈ s.rebuiltAssignments, item = wholeTask cal today a.personId a.hours := by
  obtain ⟨tid, -, hitem⟩ := List.mem_filterMap.mp h
  obtain ⟨a, ha, rfl⟩ := Option.map_eq_some_iff.mp hitem
  exact ⟨a, List.mem_of_find?_eq_some ha, rfl⟩

end Store

end Planner
