import Planner.Bookings
import Planner.Replan

/-! Dependencies and replans. Saving a project writes no dependency row, so the
rebuilt request has no edge between its tasks. -/

namespace Planner

/-- Some dependency of the template joins two tasks that take hours of the team. -/
def ProjectTemplate.LinksWork (template : ProjectTemplate) : Prop :=
  ∃ e ∈ template.edges, (∃ spec ∈ template.tasks, spec.ord = e.ord ∧ spec.durationIsWindow = false) ∧
    ∃ spec ∈ template.tasks, spec.ord = e.dependsOnOrd ∧ spec.durationIsWindow = false

/-- Both ends are tasks of the list, and no windows. -/
def Dependency.Within (d : Dependency) (tasks : List Task) : Prop :=
  (∃ t ∈ tasks, t.id = d.taskId ∧ t.durationIsWindow = false) ∧
    ∃ t ∈ tasks, t.id = d.dependsOnId ∧ t.durationIsWindow = false

/-- Between the tasks that are no windows, the request has exactly these
dependencies, with their links and lags. -/
def KeepsEdges (tasks : List Task) (deps : List Dependency) (req : PlanRequest) : Prop :=
  ∀ d : Dependency, d.Within tasks → (d ∈ req.dependencies ↔ d ∈ deps)

section Instantiate

variable {template : ProjectTemplate} {projectId : UUID} {ids : List UUID} {tasks : List Task}
  {deps : List Dependency}

/-- The template's edges between tasks that are no windows are those of the project. -/
theorem instantiate_within (h : instantiate template projectId ids = .ok (tasks, deps))
    (hnodup : (tasks.map Task.id).Nodup) :
    (∃ d ∈ deps, d.Within tasks) ↔ template.LinksWork := by
  obtain ⟨hords, rfl, rfl⟩ := instantiate_ok h
  have htask : ∀ ord spec, spec ∈ template.tasks → spec.ord = ord → spec.durationIsWindow = false →
      ∃ t ∈ template.tasks.map (fun spec =>
        spec.toTask ((ordToId template ids).getD spec.ord 0) projectId),
        t.id = (ordToId template ids).getD ord 0 ∧ t.durationIsWindow = false := by
    rintro ord spec hspec rfl hw
    exact ⟨_, List.mem_map_of_mem hspec, rfl, hw⟩
  have hspec : ∀ ord spec, spec ∈ template.tasks → spec.ord = ord →
      (∃ t ∈ template.tasks.map (fun spec =>
        spec.toTask ((ordToId template ids).getD spec.ord 0) projectId),
        t.id = (ordToId template ids).getD ord 0 ∧ t.durationIsWindow = false) →
      spec.durationIsWindow = false := by
    rintro ord spec hspec rfl ⟨t, ht, hid, hw⟩
    have heq := List.inj_on_of_nodup_map hnodup ht (List.mem_map_of_mem hspec) hid
    rw [heq] at hw
    exact hw
  constructor
  · rintro ⟨d, hd, htid, hdid⟩
    obtain ⟨e, he, rfl⟩ := List.mem_map.mp hd
    obtain ⟨a, ha, hae⟩ := List.mem_flatMap.mp he
    have hea : a.ord = e.ord := by
      obtain ⟨i, -, rfl⟩ := List.mem_map.mp hae
      rfl
    have hdep : e.dependsOnOrd ∈ template.tasks.map TemplateTaskSpec.ord := by
      have hk := hords e he
      rw [ordToId, OrdDict.mem_keys_ofList] at hk
      obtain ⟨q, hq, hqe⟩ := List.mem_map.mp hk
      exact hqe ▸ (List.of_mem_zip hq).1
    obtain ⟨b, hb, hbe⟩ := List.mem_map.mp hdep
    exact ⟨e, he, ⟨a, ha, hea, hspec _ a ha hea htid⟩, b, hb, hbe, hspec _ b hb hbe hdid⟩
  · rintro ⟨e, he, ⟨a, ha, hae, haw⟩, b, hb, hbe, hbw⟩
    exact ⟨_, List.mem_map_of_mem he, htask _ a ha hae haw, htask _ b hb hbe hbw⟩

end Instantiate

/-- The rebuilt request keeps a project's dependencies iff there are none to keep. -/
theorem replan_keeps_edges_iff (solver : GreedySolver) (intent : AddProjectIntent)
    (actor confirmer : Option PersonRecord) (people : List Person) (template : ProjectTemplate)
    (today day : Date) (existing : List DayAllocation) (overrides : List DayOverride)
    (sink : Option ProjectSink) (taskSink : Option TaskSink) (s s₁ s₂ : Store)
    (result : AddProjectResult) (deps : List Dependency) (confirmed : ConfirmResult)
    (req : PlanRequest) (hs : s.WF)
    (hadd : (addProject solver intent actor people template today existing overrides sink).run s =
      (.ok result, s₁))
    (hinst : instantiate template result.project.id
      (List.range' (result.project.id + 1) template.tasks.length) = .ok (result.tasks, deps))
    (hconfirm : (confirmPlan taskSink result.planVersionId confirmer).run s₁ = (.ok confirmed, s₂))
    (hreplan : (reconstructRequest day).run s₂ = (.ok (some req), s₂)) :
    KeepsEdges result.tasks deps req ↔ ¬ template.LinksWork := by
  rcases addProject_cases hadd with ⟨e, he, -⟩ | ⟨result', hr, hp⟩
  · cases he
  obtain rfl := Except.ok.inj hr
  -- no row of the table concerns a task of the project
  have hnone : ∀ d ∈ req.dependencies, ¬ d.Within result.tasks := by
    rintro d hd ⟨⟨t, ht, htid, -⟩, -⟩
    have hdeps : s₂.dependencies = s.dependencies := by
      rcases confirmPlan_cases hconfirm with ⟨-, rfl, -⟩ | ⟨-, hc, -⟩
      · exact hp.dependencies
      · exact hc.dependencies.trans hp.dependencies
    rw [reconstructRequest_run, Prod.mk.injEq] at hreplan
    have hreq := Except.ok.inj hreplan.1
    unfold Store.replanRequest at hreq
    split at hreq
    · cases hreq
    · obtain rfl := Option.some.inj hreq
      obtain ⟨k, hk, rfl⟩ := List.mem_map.mp (List.mem_of_mem_filter hd)
      rw [hdeps] at hk
      have hold := (hs.dependency_tasks k.1 (List.mem_map_of_mem hk)).1
      exact hp.recordable.tasks_new t ht (htid ▸ hold)
  rw [← instantiate_within hinst hp.recordable.tasks_nodup]
  constructor
  · rintro hkeep ⟨d, hd, hw⟩
    exact hnone d ((hkeep d hw).mpr hd) hw
  · intro hno d hw
    exact ⟨fun hd => absurd hw (hnone d hd), fun hd => absurd ⟨d, hd, hw⟩ hno⟩

/-- Anna shoots, and cuts two working days later. -/
def cutting : ProjectTemplate := ⟨"standard", [
  { ord := 1, name := "Съёмка", durationHours := 8, allowedPersonIds := [1] },
  { ord := 2, name := "Монтаж", durationHours := 8, allowedPersonIds := [1], dependsOnOrds := [1]
    linkTypes := [.FS], depLags := [2] }]⟩

def cuttingStore : Store where
  people := OrdDict.empty.insert 1 { name := "Анна" }
  templates := OrdDict.empty.insert 2 "standard"
  templateTasks := (OrdDict.empty.insert 3
    { templateId := 2, ord := 1, name := "Съёмка", durationHours := 8 }).insert 4
    { templateId := 2, ord := 2, name := "Монтаж", durationHours := 8 }
  templateTaskAssignees := (OrdDict.empty.insert (3, 1) { strictness := .A }).insert (4, 1)
    { strictness := .A }
  templateDependencies := OrdDict.empty.insert (4, 3) ⟨.FS, 2⟩
  nextId := 5

theorem replan_keeps_edges_iff_cutting : ∃ result deps req,
    KeepsEdges (AddProjectResult.tasks result) deps req ↔ ¬ cutting.LinksWork :=
  ⟨_, _, _, replan_keeps_edges_iff .onWeekdays { title := "Ролик", templateCode := "standard" } none none
    anna cutting 1 1 [] [] none none cuttingStore _ _ _ _ _ _ (by constructor <;> decide) rfl rfl rfl rfl⟩

theorem replan_drops_edge : ∃ result s₁ confirmed s₂ req deps,
    cuttingStore.projectTemplate "standard" = some cutting ∧
    (addProject .onWeekdays { title := "Ролик", templateCode := "standard" } none anna cutting 1 [] []
      none).run cuttingStore = (.ok result, s₁) ∧
    instantiate cutting result.project.id (List.range' (result.project.id + 1) 2) =
      .ok (result.tasks, deps) ∧
    (confirmPlan none result.planVersionId none).run s₁ = (.ok confirmed, s₂) ∧
    (reconstructRequest 1).run s₂ = (.ok (some req), s₂) ∧
    ¬ KeepsEdges result.tasks deps req := by
  refine ⟨_, _, _, _, _, _, rfl, rfl, rfl, rfl, rfl, fun h => ?_⟩
  have hh := (h ⟨7, 6, .FS, 2⟩ ⟨⟨_, List.mem_cons_of_mem _ List.mem_cons_self, rfl, rfl⟩,
    ⟨_, List.mem_cons_self, rfl, rfl⟩⟩).mpr List.mem_cons_self
  exact absurd hh (by decide)

end Planner
