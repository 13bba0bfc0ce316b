import Planner.AssignmentHours
import Planner.Bookings
import Planner.ReplanLoad

/-! Whether a replan of an unchanged world is clean. The rebuilt request knows
neither splittable tasks nor pairs: a task that was committed in pieces has to
fit in one, on a day of its first person. -/

namespace Planner

/-- Projects planned one after the other, each without an overload beside those
committed before, in a world that stays as it is. -/
inductive CleanRun (solver : GreedySolver) (today : Date) (s₀ : Store) : Store → Prop
  | start : CleanRun solver today s₀ s₀
  | project {s s₁ : Store} {intent : AddProjectIntent} {actor : Option PersonRecord}
      {template : ProjectTemplate} {sink : Option ProjectSink} {result : AddProjectResult}
      (hrun : CleanRun solver today s₀ s)
      (hadd : (addProject solver intent actor s.solverPeople template today s.committedLoad s.overrideList
        sink).run s = (.ok result, s₁))
      (hclean : result.plan.overloads = []) (taskSink : Option TaskSink) (confirmer : Option PersonRecord) :
      CleanRun solver today s₀ ((confirmPlan taskSink result.planVersionId confirmer).run s₁).2
  | aside {s : Store} (hrun : CleanRun solver today s₀ s) (act : Act)
      (hplans : (act.perform s).committedPayloads = s.committedPayloads)
      (hoverrides : (act.perform s).overrideList = s.overrideList) :
      CleanRun solver today s₀ (act.perform s)

/-- The summary of a replan lists no overload. -/
def Clean (summary : Option PlanResult) : Prop := ∀ plan, summary = some plan → plan.overloads = []

/-- Task by task in the solver's order, all hours of a committed task find one
day of its person, beside the tasks before it; and no ceiling is negative. -/
structure Store.Refits (s : Store) (solver : GreedySolver) (today : Date) : Prop where
  ceilings : ∀ b, 0 ≤ s.ceiling solver.calendar b
  packs : ∀ order, solver.topologicalSort.run s.committedGraph = some order →
    FirstFit.Packs (s.ceiling solver.calendar) (s.wholeTasks solver.calendar today order) fun _ => 0

section Run

variable {solver : GreedySolver} {today : Date} {s₀ s : Store}

theorem Act.perform_solverPeople (act : Act) : (act.perform s).solverPeople = s.solverPeople := by
  rw [Store.solverPeople, Store.peopleByName, act.perform_people]
  rfl

theorem Store.Staffed.of_payloads {s s' : Store} (h : s.Staffed)
    (hplans : s'.committedPayloads = s.committedPayloads) (hpeople : s'.solverPeople = s.solverPeople) :
    s'.Staffed := by
  rw [Staffed, committedAssignments, hplans, hpeople]
  exact h

theorem Proposed.staffed {intent : AddProjectIntent} {actor : Option PersonRecord} {people : List Person}
    {template : ProjectTemplate} {existing : List DayAllocation} {overrides : List DayOverride} {s' : Store}
    {result : AddProjectResult}
    (h : Proposed solver intent actor people template today existing overrides s result s')
    {a : Assignment} (ha : a ∈ result.plan.assignments) : a.personId ∈ people.map Person.id := by
  obtain ⟨deps, hinst, hplan⟩ := h.planned
  obtain ⟨t, -, _, _, person, p, -, hpl, rfl⟩ := placed_of_plan (instantiate_unpinned hinst) hplan
    ha
  exact List.mem_map_of_mem (allowedPeople_subset hpl.person_mem)

theorem CleanRun.keeps (hs : s₀.WF) (hempty : s₀.planVersions = .empty) (h : CleanRun solver today s₀ s) :
    s.Grown ∧ s.Staffed := by
  induction h with
  | start =>
    refine ⟨Store.grown_after hs hempty [], fun a ha => ?_⟩
    simp [Store.committedAssignments, Store.committedPayloads, hempty] at ha
  | @project s s₁ intent actor template sink result hrun hadd hclean taskSink confirmer ih =>
    obtain ⟨hgrown, hstaffed⟩ := ih
    have hs₁ : (Act.addProject solver intent actor s.solverPeople template today s.committedLoad
        s.overrideList sink).perform s = s₁ := by
      rw [Act.perform, hadd]
    have hgrown₁ : s₁.Grown := hs₁ ▸ hgrown.perform _
    have hpeople₁ : s₁.solverPeople = s.solverPeople := hs₁ ▸ Act.perform_solverPeople _
    rcases addProject_cases hadd with ⟨_, he, -⟩ | ⟨_, he, hprop⟩
    · cases he
    obtain rfl := Except.ok.inj he
    have hplans₁ := hprop.committedPayloads hgrown.wf
    have hstaffed₁ : s₁.Staffed := hstaffed.of_payloads hplans₁ hpeople₁
    refine ⟨hgrown₁.perform (.confirm taskSink result.planVersionId confirmer), ?_⟩
    rcases confirmPlan_cases (Prod.mk.eta (p := (confirmPlan taskSink result.planVersionId confirmer).run
      s₁)).symm with ⟨-, hsame, -⟩ | ⟨⟨pv, hv, hp⟩, hc, -⟩
    · rw [hsame]
      exact hstaffed₁
    · have hpv : pv.payload = serializePlan result.plan := by
        rw [hprop.planVersions, OrdDict.get?_insert_self] at hv
        exact congrArg PlanVersionRow.payload (Option.some.inj hv).symm
      intro a ha
      change a.personId ∈ ((Act.confirm taskSink result.planVersionId confirmer).perform s₁).solverPeople.map _
      rw [Act.perform_solverPeople]
      obtain ⟨payload, hpayload, ha⟩ := List.mem_flatMap.mp ha
      rcases List.mem_cons.mp ((hc.committedPayloads hv hp).subset hpayload) with rfl | hold
      · rw [hpeople₁]
        rw [hpv] at ha
        exact hprop.staffed ha
      · exact hstaffed₁ a (List.mem_flatMap.mpr ⟨payload, hold, ha⟩)
  | aside hrun act hplans hoverrides ih =>
    exact ⟨ih.1.perform act, ih.2.of_payloads hplans act.perform_solverPeople⟩

end Run

section Refit

variable {solver : GreedySolver} {today : Date} {s : Store}

theorem Store.Staffed.packs_of_none (hstaffed : s.Staffed) (h : s.replanRequest today = none)
    {cal : WorkingCalendar} (order : List UUID) :
    FirstFit.Packs (s.ceiling cal) (s.wholeTasks cal today order) fun _ => 0 := by
  have hnone : s.rebuiltAssignments = [] := by
    unfold Store.replanRequest at h
    split at h
    · rename_i hempty
      rcases hempty with hpeople | htasks
      · refine List.eq_nil_iff_forall_not_mem.mpr fun a ha => ?_
        have hm := hstaffed a (List.mem_of_mem_filter ha)
        rw [hpeople] at hm
        cases hm
      · exact List.map_eq_nil_iff.mp (s.rebuiltTasks_eq ▸ htasks)
    · cases h
  have hitems : s.wholeTasks cal today order = [] := by
    simp [Store.wholeTasks, hnone]
  rw [hitems]
  rfl

theorem Store.Grown.replan_refits (solver : GreedySolver) (today : Date) (hgrown : s.Grown) (hstaffed : s.Staffed) :
    ∃ summary, (buildReplanSummary solver today).run s = (.ok summary, s) ∧
      (s.Refits solver today → Clean summary) ∧
      ((∀ b, 0 ≤ s.ceiling solver.calendar b) → (∀ a ∈ s.rebuiltAssignments, 0 ≤ a.hours) →
        Clean summary → s.Refits solver today) := by
  cases hout : (buildReplanSummary solver today).run s with
  | mk r s' =>
    obtain ⟨rfl, rfl⟩ := buildReplanSummary_cases hout
    cases hreq : s'.replanRequest today with
    | none =>
      exact ⟨none, rfl, fun _ => nofun, fun hceil _ _ => ⟨hceil, fun order _ => hstaffed.packs_of_none hreq order⟩⟩
    | some req =>
      obtain ⟨order, st, hsort, hnodup, -, hall, hplan⟩ := plain_plan solver (hgrown.replan_plain hreq)
      have hfilled := hgrown.refilled hstaffed hreq hnodup hall
      refine ⟨some (planResult req order st), by simp only [hplan]; rfl, fun h => ?_, fun hceil hhours h => ?_⟩
      · rintro _ ⟨⟩
        rw [hgrown.replan_graph hreq] at hsort
        exact (hfilled.overloads_iff hreq h.ceilings).mpr fun b => (h.packs order hsort).fill_le h.ceilings b
      · refine ⟨hceil, fun order' hsort' => ?_⟩
        rw [← hgrown.replan_graph hreq, hsort] at hsort'
        obtain rfl := Option.some.inj hsort'
        refine (FirstFit.packs_iff (fun item hitem => ?_) hceil).mpr ((hfilled.overloads_iff hreq hceil).mp (h _ rfl))
        obtain ⟨a, ha, rfl⟩ := Store.mem_wholeTasks hitem
        exact hhours a ha

/-- Every committed task that refits has a day of its person that is long enough. -/
theorem Store.Refits.hours_le (hgrown : s.Grown) (h : s.Refits solver today)
    (hhours : ∀ a ∈ s.rebuiltAssignments, 0 ≤ a.hours) {a : Assignment} (ha : a ∈ s.rebuiltAssignments) :
    ∃ d, a.hours ≤ s.ceiling solver.calendar (a.personId, d) := by
  obtain ⟨order, hsort⟩ := solver.topologicalSort.complete s.committedGraph (acyclic_buildDag _)
  have hmem : a.taskId ∈ order := by
    rw [(solver.topologicalSort.sound _ _ hsort).mem_iff, committedGraph, mem_nodes_buildDag_nil, List.map_map]
    exact List.mem_map_of_mem ha
  have hitem : wholeTask solver.calendar today a.personId a.hours ∈ s.wholeTasks solver.calendar today order :=
    List.mem_filterMap.mpr ⟨a.taskId, hmem, by rw [Store.find_rebuilt hgrown.wf ha]; rfl⟩
  have hsize : ∀ item ∈ s.wholeTasks solver.calendar today order, 0 ≤ item.size := fun item hi => by
    obtain ⟨c, hc, rfl⟩ := Store.mem_wholeTasks hi
    exact hhours c hc
  obtain ⟨b, hb, hle⟩ := (h.packs order hsort).size_le hsize (fun _ => le_rfl) hitem
  obtain ⟨d, -, rfl⟩ := List.mem_map.mp hb
  exact ⟨d, hle⟩

end Refit

/-- In any such run the replan is clean if the committed tasks refit, and where
neither hours nor ceilings are negative only then. -/
theorem replan_clean_iff (solver : GreedySolver) (today : Date) (s₀ : Store) (hs : s₀.WF)
    (hempty : s₀.planVersions = .empty) (s : Store) (hrun : CleanRun solver today s₀ s) :
    ∃ summary, (buildReplanSummary solver today).run s = (.ok summary, s) ∧
      (s.Refits solver today → Clean summary) ∧
      ((∀ b, 0 ≤ s.ceiling solver.calendar b) → (∀ a ∈ s.rebuiltAssignments, 0 ≤ a.hours) →
        Clean summary → s.Refits solver today) := by
  obtain ⟨hgrown, hstaffed⟩ := hrun.keeps hs hempty
  exact hgrown.replan_refits solver today hstaffed

theorem replan_clean_iff_shooting : ∃ s summary, CleanRun .onWeekdays 1 shootingStore s ∧
    s.committedLoad = [⟨1, 1, 8⟩] ∧ (buildReplanSummary .onWeekdays 1).run s = (.ok summary, s) ∧
    (s.Refits .onWeekdays 1 → Clean summary) := by
  obtain ⟨result, s₁, hadd, hclean, hload⟩ : ∃ result s₁, (addProject .onWeekdays
      { title := "Ролик", templateCode := "lite" } none shootingStore.solverPeople shooting 1
      shootingStore.committedLoad shootingStore.overrideList none).run shootingStore = (.ok result, s₁) ∧
      result.plan.overloads = [] ∧
      ((confirmPlan none result.planVersionId none).run s₁).2.committedLoad = [⟨1, 1, 8⟩] := ⟨_, _, rfl, rfl, rfl⟩
  have hrun := CleanRun.project .start hadd hclean none none
  obtain ⟨summary, h, hrefits, -⟩ := replan_clean_iff .onWeekdays 1 shootingStore (by constructor <;> decide) rfl _ hrun
  exact ⟨_, summary, hrun, hload, h, hrefits⟩

theorem ceiling_anna (s : Store) (hpeople : s.solverPeople = anna) (hoverrides : s.overrideList = []) (cal : WorkingCalendar)
    (b : UUID × Date) : 0 ≤ s.ceiling cal b ∧ s.ceiling cal b ≤ 8 := by
  have hnorm : (OrdDict.ofList (anna.map fun q => (q.id, q.capacityH))) = OrdDict.empty.insert 1 8 := rfl
  have hceil : s.ceiling cal b = if !cal.isWorkingDay b.2 then 0 else if b.1 = 1 then 8 else 0 := by
    rw [Store.ceiling, hpeople, hoverrides]
    simp only [capacityOn, hnorm, OrdDict.getD, OrdDict.get?_insert, List.map_nil]
    by_cases hb : b.1 = 1 <;> simp [hb, OrdDict.ofList]
  rw [hceil]
  split
  · decide
  · split <;> decide

/-- Two days of one task: committed on two days, replanned on one. -/
theorem long_task_overloads : longStore.WF ∧ longStore.projectTemplate "long" = some longShooting ∧
    ∃ s plan, CleanRun .onWeekdays 1 longStore s ∧
      (buildReplanSummary .onWeekdays 1).run s = (.ok (some plan), s) ∧ ¬ Clean (some plan) := by
  have hwf : longStore.WF := by constructor <;> decide
  obtain ⟨result, s₁, hadd, hclean, hpeople, hoverrides, hrebuilt⟩ : ∃ result s₁, (addProject .onWeekdays
      { title := "Ролик", templateCode := "long" } none longStore.solverPeople longShooting 1
      longStore.committedLoad longStore.overrideList none).run longStore = (.ok result, s₁) ∧
      result.plan.overloads = [] ∧
      ((confirmPlan none result.planVersionId none).run s₁).2.solverPeople = anna ∧
      ((confirmPlan none result.planVersionId none).run s₁).2.overrideList = [] ∧
      ((confirmPlan none result.planVersionId none).run s₁).2.rebuiltAssignments =
        [⟨5, 1, 1, 2, [⟨1, 1, 8⟩, ⟨1, 2, 8⟩]⟩] := ⟨_, _, rfl, rfl, rfl, rfl, rfl⟩
  have hrun := CleanRun.project .start hadd hclean none none
  obtain ⟨hgrown, hstaffed⟩ := hrun.keeps hwf rfl
  generalize ((confirmPlan none result.planVersionId none).run s₁).2 = s at *
  have hhours : ∀ a ∈ s.rebuiltAssignments, 0 ≤ a.hours := by
    rw [hrebuilt]
    decide
  obtain ⟨summary, h, -, honly⟩ := hgrown.replan_refits .onWeekdays 1 hstaffed
  have hnot : ¬ Clean summary := fun hc => by
    obtain ⟨d, hd⟩ := (honly (fun b => (ceiling_anna s hpeople hoverrides _ b).1) hhours hc).hours_le hgrown hhours
      (hrebuilt ▸ List.mem_cons_self)
    exact absurd (hd.trans (ceiling_anna s hpeople hoverrides _ _).2) (by decide)
  cases summary with
  | none => exact absurd nofun hnot
  | some plan => exact ⟨hwf, rfl, s, plan, hrun, h, hnot⟩

end Planner
