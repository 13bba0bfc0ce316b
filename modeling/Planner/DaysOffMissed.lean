import Planner.DaysOff
import Planner.PlainPlan

/-! Where the stored overrides matter, some proposal of the chat path misses
them: the overload of a booked day is flagged with one ceiling only. -/

namespace Planner

/-- A window task goes to the first candidate, and books no hours. -/
theorem plan_of_window (solver : GreedySolver) (req : PlanRequest) (t : Task) (person : Person)
    (rest : List Person) (htasks : req.tasks = [t]) (hdeps : req.dependencies = [])
    (hallowed : allowedPeople req t = person :: rest) (hw : t.durationIsWindow = true)
    (hpin : t.pinned? = none) :
    ∃ plan a, solver.plan req = .ok plan ∧ plan.assignments = [a] ∧ a.taskId = t.id ∧
      a.personId = person.id ∧ a.allocations = [] := by
  have hpeople : req.people ≠ [] := by
    intro h
    have hnone : ∀ ids : List UUID, ids.filterMap (fun pid => (peopleById req).get? pid) = [] := by
      intro ids
      refine List.filterMap_eq_nil_iff.mpr fun pid _ => ?_
      simp [peopleById, h, OrdDict.ofList]
    simp [allowedPeople, hnone, h] at hallowed
  obtain ⟨order, hrun⟩ := solver.topologicalSort.complete (buildDag req.tasks req.dependencies)
    (hdeps ▸ acyclic_buildDag req.tasks)
  have htopo := solver.topologicalSort.sound _ _ hrun
  have horder : order = [t.id] := by
    refine List.perm_singleton.mp ((List.perm_ext_iff_of_nodup htopo.nodup
      (List.nodup_singleton _)).mpr fun v => ?_)
    rw [htopo.mem_iff, List.mem_singleton]
    simp only [buildDag, htasks, hdeps, List.foldl_nil, List.foldl_cons, EdgeGraph.mem_nodes_addNode]
    simp [EdgeGraph.empty]
  have hget : (tasksById req).get? t.id = some t := by
    simp [tasksById, htasks, OrdDict.ofList, OrdDict.insertAll]
  have hstart : startState solver.calendar req =
      ⟨.init req.people solver.calendar req.dayOverrides req.existingAllocations, OrdDict.empty⟩ :=
    startState_unpinned (by intro u hu; rw [htasks, List.mem_singleton] at hu; exact hu ▸ hpin)
  have hempty : (!req.tasks.isEmpty && req.people.isEmpty) = false := by simp [hpeople]
  let p := allocateWindow t (earliestStart t (buildDag req.tasks req.dependencies) OrdDict.empty
    req.horizonStart solver.calendar) solver.calendar
  let idx := CapacityIndex.init req.people solver.calendar req.dayOverrides req.existingAllocations
  have hplace : placeAll solver.calendar req (buildDag req.tasks req.dependencies) [t.id]
      ⟨idx, OrdDict.empty⟩ = .ok ⟨idx.occupy p.allocs,
        OrdDict.empty.insert t.id ⟨t.id, person.id, p.startDate, p.endDate, p.allocs⟩⟩ := by
    simp only [placeAll, placeTask, hget, placeOn, hw, hallowed, if_true]
    rfl
  refine ⟨planResult req [t.id] ⟨idx.occupy p.allocs,
      OrdDict.empty.insert t.id ⟨t.id, person.id, p.startDate, p.endDate, p.allocs⟩⟩,
    ⟨t.id, person.id, p.startDate, p.endDate, p.allocs⟩, ?_, ?_, rfl, rfl, rfl⟩
  · simp only [GreedySolver.plan, hempty, hrun, horder, hstart]
    rw [hplace]
    rfl
  · simp only [planResult, List.filterMap_cons, OrdDict.get?_insert_self, List.filterMap_nil]

theorem mem_solverPeople {s : Store} {p : Person} (h : p ∈ s.solverPeople) :
    p.id ∈ s.people.keys := by
  obtain ⟨e, he, rfl⟩ := List.mem_map.mp h
  have hm : e ∈ s.people.entries := (List.perm_insertionSort _ _).subset (List.mem_of_mem_filter he)
  exact List.mem_map_of_mem hm

/-- The same people and overrides, one template with one window task, and one
committed plan that books `hours` on one day. -/
def Store.bookedOn (s : Store) (p : UUID) (d : Date) (hours : Int) : Store where
  people := s.people
  dayOverrides := s.dayOverrides
  templates := OrdDict.empty.insert 0 "lite"
  templateTasks := OrdDict.empty.insert 1
    { templateId := 0, ord := 1, name := "Window", durationHours := 40, durationIsWindow := true }
  projects := OrdDict.empty.insert 0
    { title := "Booked", templateId := some 0, deadline := none, briefReturnDate := none
      status := .committed, createdBy := none }
  tasks := OrdDict.empty.insert 1 { projectId := 0, name := "Work", durationHours := hours }
  assignments := OrdDict.empty.insert (1, p) hours
  planVersions := OrdDict.empty.insert 2
    ⟨0, .committed, ⟨[⟨1, p, d, d, [⟨p, d, hours⟩]⟩], [], some d⟩, none⟩
  nextId := 3

theorem bookedOn_wf {s : Store} (hs : s.WF) {p : UUID} (hp : p ∈ s.people.keys) (d : Date)
    (hours : Int) : (s.bookedOn p d hours).WF := by
  have hversions : (s.bookedOn p d hours).planVersions.values =
      [⟨0, .committed, ⟨[⟨1, p, d, d, [⟨p, d, hours⟩]⟩], [], some d⟩, none⟩] := rfl
  have hplanned : (s.bookedOn p d hours).planAssignments = [⟨1, p, d, d, [⟨p, d, hours⟩]⟩] := rfl
  refine ⟨?_, ?_, ?_, ?_, ?_, hs.override_person, ?_, ?_, ?_, ?_, ?_⟩
  · intro q hq
    obtain rfl : q = 0 := List.mem_singleton.mp hq
    exact Nat.succ_pos 2
  · intro t ht
    obtain rfl : t = 1 := List.mem_singleton.mp ht
    exact Nat.lt_add_left 1 (Nat.lt_succ_self 1)
  · intro v hv
    obtain rfl : v = 2 := List.mem_singleton.mp hv
    exact Nat.lt_succ_self 2
  · intro row hrow
    obtain rfl := List.mem_singleton.mp hrow
    exact List.mem_singleton.mpr rfl
  · intro k hk
    obtain rfl : k = (1, p) := List.mem_singleton.mp hk
    exact ⟨List.mem_singleton.mpr rfl, hp⟩
  · intro k hk
    cases hk
  · intro pv hpv
    obtain rfl := List.mem_singleton.mp (hversions ▸ hpv)
    exact List.mem_singleton.mpr rfl
  · rw [hversions]
    exact List.nodup_singleton _
  · intro a ha
    obtain rfl := List.mem_singleton.mp (hplanned ▸ ha)
    exact List.mem_singleton.mpr rfl
  · rw [hplanned]
    exact List.nodup_singleton _

/-- The one task of the template, under the id it is given next to the bookings. -/
def windowTask : Task where
  id := 4
  name := "Window"
  durationHours := 40
  allowedPersonIds := []
  projectId := some 3
  durationIsWindow := true
  source := .template

def launchOn (d : Date) : AddProjectIntent where
  title := "Launch"
  templateCode := "lite"
  deadline := some d

def launchRequest (people : List Person) (b : DayAllocation) (os : List DayOverride) : PlanRequest :=
  projectRequest people [windowTask] [] b.day os [b] (some b.day)

/-- The chat path proposes the window, without hours, past the stored overrides. -/
theorem bookedOn_proposes {s : Store} (hpeople : s.solverPeople ≠ []) (solver : GreedySolver) (p : UUID) (d : Date)
    (hours : Int) :
    ∃ result s'', (buildAddProjectReply solver (launchOn d) none d none).run (s.bookedOn p d hours) =
        (.ok (.ok result), s'') ∧ result.tasks = [windowTask] ∧
      solver.plan (launchRequest s.solverPeople ⟨p, d, hours⟩ []) = .ok result.plan ∧
      result.plan.assignments.flatMap Assignment.allocations = [] := by
  let s' := s.bookedOn p d hours
  let template : ProjectTemplate := ⟨"lite", [{
    ord := 1, name := "Window", durationHours := 40, allowedPersonIds := [], durationIsWindow := true }]⟩
  have htemplate : s'.projectTemplate "lite" = some template := rfl
  have hinst : instantiate template s'.nextId
      (List.range' (s'.nextId + 1) template.tasks.length) = .ok ([windowTask], []) := rfl
  obtain ⟨person, rest, hpool⟩ := List.exists_cons_of_ne_nil hpeople
  obtain ⟨plan, a, hplan, hassign, hta, hpa, hallocs⟩ := plan_of_window solver
    (launchRequest s.solverPeople ⟨p, d, hours⟩ []) windowTask person rest rfl rfl hpool rfl rfl
  have hrec : s'.Recordable none s'.nextId [windowTask] plan.assignments := by
    refine ⟨fun q hq => by simp at hq, fun h => ?_, List.nodup_singleton _, fun u hu h => ?_,
      fun r hr => ?_⟩
    · have h30 : (3 : Nat) = 0 := List.mem_singleton.mp h
      omega
    · obtain rfl := List.mem_singleton.mp hu
      have h41 : (4 : Nat) = 1 := List.mem_singleton.mp h
      omega
    · have hrow : assignmentRows [windowTask] (scheduleOf plan.assignments) = [((4, person.id), 40)] := by
        have hget : (scheduleOf plan.assignments).get? windowTask.id = some a := by
          simp [hassign, scheduleOf, hta, OrdDict.ofList, OrdDict.insertAll]
        simp only [assignmentRows, List.flatMap_cons, hget, hoursByPerson, hallocs, hpa]
        rfl
      rw [hrow, List.mem_singleton] at hr
      subst hr
      refine ⟨mem_solverPeople (hpool ▸ List.mem_cons_self), fun h => ?_⟩
      exact absurd (Prod.mk.inj (List.mem_singleton.mp h)).1 (by decide)
  have hv : validProject (launchOn d) template d = .ok "Launch" := by
    have hstrip : strip "Launch" = "Launch" := by decide
    simp [validProject, launchOn, hstrip, template]
  have hend : earliestEndOf solver (launchRequest s.solverPeople ⟨p, d, hours⟩ []) d = .ok none := rfl
  obtain ⟨result, s'', hrun, rfl, htasks⟩ := addProject_succeeds none none hv hinst hplan hend hrec
  refine ⟨result, s'', ?_, htasks, hplan, by rw [hassign, List.flatMap_singleton, hallocs]⟩
  have hsome : s'.solverPeople.isEmpty = false := by
    rw [show s'.solverPeople = person :: rest from hpool]
    rfl
  have hcode : (launchOn d).templateCode = "lite" := rfl
  change (buildAddProjectReply solver (launchOn d) none d none).run s' = _
  simp only [buildAddProjectReply, Program.run_bind, Repo.getProjectTemplate,
    Repo.getSolverPeople, Repo.listCommittedPlans, Program.run_read, hcode, htemplate, hsome,
    Program.run_attempt, Bool.false_eq_true, if_false]
  have hload : s'.committedPayloads.flatMap deserializeAllocations = [⟨p, d, hours⟩] := rfl
  have hpeople' : s'.solverPeople = s.solverPeople := rfl
  rw [hload, hpeople', hrun]
  rfl

/-- Where the only hours are those of one day, it is flagged iff they exceed its ceiling. -/
theorem plan_flags_only {solver : GreedySolver} {req : PlanRequest} {res : PlanResult} (hpin : req.Unpinned)
    (h : solver.plan req = .ok res) {p : UUID} {d : Date} {hours : Int}
    (hload : req.existingAllocations ++ res.assignments.flatMap Assignment.allocations = [⟨p, d, hours⟩]) :
    (∃ r ∈ res.overloads, r.ListsOverload p d) ↔
      capacityOn req.people solver.calendar req.dayOverrides p d < hours := by
  have hhours : hoursOn [⟨p, d, hours⟩] p d = hours := by simp [hoursOn]
  constructor
  · rintro ⟨r, hr, hl⟩
    have hh := plan_overload_exceeds hpin h hr hl
    rwa [hload, hhours] at hh
  · intro hlt
    refine plan_lists_overbooked hpin h ?_
    rw [hload, Overbooked, hhours]
    exact ⟨⟨_, List.mem_singleton.mpr rfl, rfl, rfl⟩, hlt⟩

theorem bookedOn_disrespects {s : Store} (hs : s.WF) {solver : GreedySolver} {p : UUID} {d : Date}
    {row : OverrideRow} (hpeople : s.solverPeople ≠ []) (hg : s.dayOverrides.get? (p, d) = some row)
    (hne : row.capacityH ≠ capacityOn s.solverPeople solver.calendar [] p d) :
    ∃ s' : Store, s'.WF ∧ s'.people = s.people ∧ s'.dayOverrides = s.dayOverrides ∧
      ∃ intent, ¬ RespectsOverrides solver intent none d none s' := by
  have hp : p ∈ s.people.keys :=
    hs.override_person (p, d) (OrdDict.mem_keys.mpr (Option.isSome_iff_exists.mpr ⟨row, hg⟩))
  -- more than one of the two ceilings, and not more than the other
  let hours := max row.capacityH (capacityOn s.solverPeople solver.calendar [] p d)
  refine ⟨s.bookedOn p d hours, bookedOn_wf hs hp d hours, rfl, rfl, launchOn d, fun hrespects => ?_⟩
  obtain ⟨result, s'', hreply, htasks, hplan, hallocs⟩ := bookedOn_proposes hpeople solver p d hours
  have hsolved : solver.plan (launchRequest s.solverPeople ⟨p, d, hours⟩ s.overrideList) = .ok result.plan := by
    have hh := (hrespects result s'' hreply).1 _ [] rfl (htasks ▸ rfl)
    rwa [htasks] at hh
  have hflag : ∀ os, solver.plan (launchRequest s.solverPeople ⟨p, d, hours⟩ os) = .ok result.plan →
      ((∃ r ∈ result.plan.overloads, r.ListsOverload p d) ↔
        capacityOn s.solverPeople solver.calendar os p d < hours) := by
    intro os hos
    refine plan_flags_only (fun u hu => ?_) hos (by rw [hallocs]; rfl)
    obtain rfl := List.mem_singleton.mp hu
    rfl
  have hboth := (hflag [] hplan).symm.trans (hflag s.overrideList hsolved)
  rw [capacityOn_of_override hg] at hboth
  omega

/-- Anna is off on the Monday on which she is asked for eight hours. -/
def vacationMonday : Date := Date.ofYmd 2026 6 1

def vacationStore : Store where
  people := OrdDict.empty.insert 1 { name := "Анна" }
  templates := OrdDict.empty.insert 2 "lite"
  templateTasks := OrdDict.empty.insert 3
    { templateId := 2, ord := 1, name := "Съёмка", durationHours := 8 }
  templateTaskAssignees := OrdDict.empty.insert (3, 1) { strictness := .A }
  dayOverrides := OrdDict.empty.insert (1, vacationMonday) ⟨0, some "отпуск"⟩
  nextId := 4

end Planner
