import Planner.ProposalTables
import Planner.TemplateRows

/-! A template document through the tables into a project: what is loaded is
read back task by task, and instantiated as the document's own graph. -/

namespace Planner

/-- The task an entry stands for, under an id. -/
def TaskEntry.task (entry : TaskEntry) (people : OrdDict String UUID) (projectId id : UUID) : Task where
  id := id
  name := entry.name
  durationHours := entry.durationHours
  allowedPersonIds := entry.allowed people
  projectId := some projectId
  isSplittable := entry.isSplittable.getD false
  pairMode := pairModeOf entry
  durationIsWindow := entry.durationIsWindow.getD false
  source := .template

/-- The tasks and dependencies are the document's graph, with ids for ords. -/
structure InstanceOf (people : OrdDict String UUID) (entries : List TaskEntry) (projectId : UUID)
    (id : Int → UUID) (tasks : List Task) (deps : List Dependency) : Prop where
  injective : ∀ e ∈ entries, ∀ f ∈ entries, id e.ord = id f.ord → e = f
  tasks : tasks.Perm (entries.map fun e => e.task people projectId (id e.ord))
  deps : deps.Perm (entries.flatMap fun e => e.links.map fun l => ⟨id e.ord, id l.1, l.2.linkType, l.2.lag⟩)

/-- The template that is read back. -/
def TaskEntry.spec (entry : TaskEntry) (people : OrdDict String UUID) : TemplateTaskSpec where
  ord := entry.ord
  name := entry.name
  durationHours := entry.durationHours
  allowedPersonIds := entry.allowed people
  dependsOnOrds := entry.links.map Prod.fst
  linkTypes := entry.links.map fun l => l.2.linkType
  depLags := entry.links.map fun l => l.2.lag
  isSplittable := entry.isSplittable.getD false
  pairMode := pairModeOf entry
  durationIsWindow := entry.durationIsWindow.getD false

section Read

variable {base : Store} {code : String} {templateId : UUID} {entries : List TaskEntry}
  {people : OrdDict String UUID} {taskId : Int → UUID}

/-- The task rows of the template, in the order of their ords. -/
theorem templateRows_loaded (hclear : base.Cleared code templateId) (hids : FreshIds base entries taskId) :
    (((base.loaded templateId entries people taskId).templateTasks.entries.filter fun e =>
      e.2.templateId = templateId).insertionSort fun a b => a.2.ord ≤ b.2.ord) =
      (entries.insertionSort fun a b => a.ord ≤ b.ord).map fun e => (taskId e.ord, e.row templateId) := by
  have hentries : (base.loaded templateId entries people taskId).templateTasks.entries =
      base.templateTasks.entries ++ entries.map fun e => (taskId e.ord, e.row templateId) := by
    refine OrdDict.entries_insertAll _ _ ?_ fun k hk => ?_
    · rw [List.map_map]
      exact hids.nodup
    · rw [List.map_map] at hk
      obtain ⟨e, he, rfl⟩ := List.mem_map.mp hk
      exact hids.not_mem hclear.wf he
  have hold : base.templateTasks.entries.filter (fun e => e.2.templateId = templateId) = [] :=
    List.filter_eq_nil_iff.mpr fun e he => by simpa using hclear.no_tasks e he
  have hnew : (entries.map fun e => (taskId e.ord, e.row templateId)).filter
      (fun e => e.2.templateId = templateId) = entries.map fun e => (taskId e.ord, e.row templateId) := by
    refine List.filter_eq_self.mpr fun r hr => ?_
    obtain ⟨e, -, rfl⟩ := List.mem_map.mp hr
    exact decide_eq_true rfl
  rw [hentries, List.filter_append, hold, hnew, List.nil_append]
  exact (List.map_insertionSort _ _ (fun e : TaskEntry => (taskId e.ord, e.row templateId)) entries
    fun _ _ _ _ => Iff.rfl).symm

/-- The dependency rows of one task, by ord. -/
theorem links_loaded (hclear : base.Cleared code templateId) (hdoc : Document people entries)
    (hids : FreshIds base entries taskId) {idToOrd : OrdDict UUID Int}
    (hord : ∀ ord ∈ entries.map TaskEntry.ord, idToOrd.get? (taskId ord) = some ord) {e : TaskEntry}
    (he : e ∈ entries) :
    ((base.loaded templateId entries people taskId).templateDependencies.entries.filterMap fun d =>
      if d.1.1 = taskId e.ord then (idToOrd.get? d.1.2).map fun ord => (ord, d.2) else none) = e.links := by
  have hentries : (base.loaded templateId entries people taskId).templateDependencies.entries =
      base.templateDependencies.entries ++ entries.flatMap fun e => e.linked taskId :=
    OrdDict.entries_insertAll _ _ (nodup_linked hdoc hids) (linked_new hclear.wf hids)
  have hold : base.templateDependencies.entries.filter (fun d => d.1.1 = taskId e.ord) = [] := by
    refine List.filter_eq_nil_iff.mpr fun d hd hde => hids.not_mem hclear.wf he ?_
    obtain ⟨_, -, hfound, -⟩ := hclear.wf.dependency_tasks d.1 (List.mem_map_of_mem hd)
    exact of_decide_eq_true hde ▸ OrdDict.mem_keys.mpr (by simp [hfound])
  have hnew := @filter_flatMap_tag _ _ _ _ entries (fun e => e.linked taskId) (fun e => taskId e.ord)
    (fun d => d.1.1) hids.nodup (fun e _ d hd => by
      obtain ⟨l, -, rfl⟩ := List.mem_map.mp hd
      rfl) e he
  have hfilter := List.filterMap_filter (p := fun d : (UUID × UUID) × Link => d.1.1 = taskId e.ord)
    (f := fun d : (UUID × UUID) × Link => (idToOrd.get? d.1.2).map fun ord => (ord, d.2))
    (l := (base.loaded templateId entries people taskId).templateDependencies.entries)
  simp only [decide_eq_true_eq] at hfilter
  rw [← hfilter, hentries, List.filter_append, hold, hnew, List.nil_append, TaskEntry.linked, List.filterMap_map]
  refine (List.filterMap_congr fun l hl => ?_).trans List.filterMap_some
  have hl' := hord l.1 ((hdoc.links_ords he).2 l.1 (List.mem_map_of_mem hl))
  simp only [Function.comp_apply, hl']
  rfl

theorem pairwise_rowOrder (rows : List ((UUID × UUID) × AssigneeRow)) :
    (rows.insertionSort fun a b => a.2.priority < b.2.priority ∨
      a.2.priority = b.2.priority ∧ a.2.strictness.rank ≤ b.2.strictness.rank).Pairwise fun a b =>
        a.2.priority ≤ b.2.priority := by
  have : Std.Total fun a b : (UUID × UUID) × AssigneeRow => a.2.priority < b.2.priority ∨
      a.2.priority = b.2.priority ∧ a.2.strictness.rank ≤ b.2.strictness.rank := ⟨fun a b => by omega⟩
  have : IsTrans _ fun a b : (UUID × UUID) × AssigneeRow => a.2.priority < b.2.priority ∨
      a.2.priority = b.2.priority ∧ a.2.strictness.rank ≤ b.2.strictness.rank :=
    ⟨fun a b c hab hbc => by omega⟩
  exact (List.pairwise_insertionSort _ rows).imp fun hab => by omega

theorem allowed_loaded (hclear : base.Cleared code templateId) (hdoc : Document people entries)
    (hids : FreshIds base entries taskId) {e : TaskEntry} (he : e ∈ entries) :
    ((((base.loaded templateId entries people taskId).templateTaskAssignees.entries.insertionSort fun a b =>
      a.2.priority < b.2.priority ∨
        a.2.priority = b.2.priority ∧ a.2.strictness.rank ≤ b.2.strictness.rank).filter fun a =>
          a.1.1 = taskId e.ord).map fun a => a.1.2) = e.allowed people := by
  have hentries : (base.loaded templateId entries people taskId).templateTaskAssignees.entries =
      base.templateTaskAssignees.entries ++ entries.flatMap fun e => e.assigned people (taskId e.ord) :=
    OrdDict.entries_insertAll _ _ (nodup_assigned hdoc hids) (assigned_new hclear.wf hids)
  have hold : base.templateTaskAssignees.entries.filter (fun a => a.1.1 = taskId e.ord) = [] := by
    refine List.filter_eq_nil_iff.mpr fun a ha hae => hids.not_mem hclear.wf he ?_
    exact of_decide_eq_true hae ▸ hclear.wf.assignee_task a.1 (List.mem_map_of_mem ha)
  have hnew := @filter_flatMap_tag _ _ _ _ entries (fun e => e.assigned people (taskId e.ord))
    (fun e => taskId e.ord) (fun a => a.1.1) hids.nodup (fun e _ a ha => by
      obtain ⟨r, -, rfl⟩ := List.mem_map.mp ha
      rfl) e he
  obtain ⟨rows, hrows⟩ : ∃ rows, rows =
    (base.loaded templateId entries people taskId).templateTaskAssignees.entries := ⟨_, rfl⟩
  rw [← hrows] at hentries ⊢
  have hfilter : rows.filter (fun a => a.1.1 = taskId e.ord) = e.assigned people (taskId e.ord) := by
    rw [hentries, List.filter_append, hold, List.nil_append]
    exact hnew
  -- with distinct priorities the order of the rows is the order of the document
  have hsorted : (rows.insertionSort fun a b => a.2.priority < b.2.priority ∨
      a.2.priority = b.2.priority ∧ a.2.strictness.rank ≤ b.2.strictness.rank).filter
        (fun a => a.1.1 = taskId e.ord) = (e.ranked.insertionSort fun a b => a.2 ≤ b.2).map fun a =>
          ((taskId e.ord, people.getD a.1.name 0), ⟨(Strictness.ofColumn? a.1.strictness).getD .A, a.2⟩) := by
    have hperm := ((List.perm_insertionSort (fun a b : (UUID × UUID) × AssigneeRow =>
      a.2.priority < b.2.priority ∨ a.2.priority = b.2.priority ∧ a.2.strictness.rank ≤ b.2.strictness.rank)
        rows).filter fun a => a.1.1 = taskId e.ord).trans (List.Perm.of_eq hfilter)
    have hranked : ((e.ranked.insertionSort fun a b => a.2 ≤ b.2).map fun a =>
        (((taskId e.ord, people.getD a.1.name 0), ⟨(Strictness.ofColumn? a.1.strictness).getD .A, a.2⟩) :
          (UUID × UUID) × AssigneeRow)).Perm (e.assigned people (taskId e.ord)) :=
      (List.perm_insertionSort _ e.ranked).map _
    refine @List.Perm.eq_of_pairwise _ (fun a b => a.2.priority ≤ b.2.priority) _ _ ?_ ?_ ?_ ?_
    · intro a b ha hb hab hba
      have hprio : (e.assigned people (taskId e.ord)).map (fun a => a.2.priority) = e.ranked.map Prod.snd := by
        rw [TaskEntry.assigned, List.map_map]
        rfl
      exact List.inj_on_of_nodup_map (hprio ▸ hdoc.priorities e he) (hperm.subset ha) (hranked.subset hb)
        (Int.le_antisymm hab hba)
    · exact (pairwise_rowOrder rows).filter _
    · refine List.pairwise_map.mpr ((List.pairwise_insertionSort (fun a b : AssigneeEntry × Int => a.2 ≤ b.2)
        e.ranked).imp fun hab => hab)
    · exact hperm.trans hranked.symm
  rw [hsorted, List.map_map, TaskEntry.allowed]
  refine (List.filterMap_eq_map_iff_forall_eq_some.mpr fun a ha => ?_).symm
  exact hdoc.person he (mem_of_ranked ((List.mem_insertionSort _).mp ha))

theorem projectTemplate_loaded (hclear : base.Cleared code templateId) (hdoc : Document people entries)
    (hids : FreshIds base entries taskId) :
    (base.loaded templateId entries people taskId).projectTemplate code =
      some ⟨code, (entries.insertionSort fun a b => a.ord ≤ b.ord).map fun e => e.spec people⟩ := by
  have hsort := List.perm_insertionSort (fun a b : TaskEntry => a.ord ≤ b.ord) entries
  have hord : ∀ ord ∈ entries.map TaskEntry.ord, (OrdDict.ofList ((entries.insertionSort fun a b =>
      a.ord ≤ b.ord).map fun e => (taskId e.ord, e.ord))).get? (taskId ord) = some ord := by
    intro ord hmem
    obtain ⟨e, he, rfl⟩ := List.mem_map.mp hmem
    refine OrdDict.get?_ofList_of_mem ?_ (List.mem_map.mpr ⟨e, hsort.symm.subset he, rfl⟩)
    rw [List.map_map]
    exact (hsort.map _).nodup_iff.mpr hids.nodup
  unfold Store.projectTemplate
  have hfound : (base.loaded templateId entries people taskId).templateIdOf code = some templateId :=
    hclear.found
  simp only [hfound, Option.map_some, templateRows_loaded hclear hids, List.map_map]
  refine congrArg some (congrArg (ProjectTemplate.mk code) (List.map_congr_left fun e he => ?_))
  have he' := hsort.subset he
  have hlinks := @links_loaded base code templateId entries people taskId hclear hdoc hids _ hord _ he'
  have hallowed := allowed_loaded hclear hdoc hids he'
  simp only [Function.comp_def, TaskEntry.row, hlinks, hallowed]
  rfl

theorem templatesWF_loaded (hclear : base.Cleared code templateId) (hdoc : Document people entries)
    (hids : FreshIds base entries taskId) : (base.loaded templateId entries people taskId).TemplatesWF := by
  have hnew : ∀ e ∈ entries,
      (base.loaded templateId entries people taskId).templateTasks.get? (taskId e.ord) = some (e.row templateId) := by
    intro e he
    refine OrdDict.get?_insertAll_of_mem _ _ ?_ (List.mem_map.mpr ⟨e, he, rfl⟩)
    rw [List.map_map]
    exact hids.nodup
  have hold : ∀ k row, base.templateTasks.get? k = some row →
      (base.loaded templateId entries people taskId).templateTasks.get? k = some row := by
    intro k row hk
    refine (OrdDict.get?_insertAll_of_not_mem _ _ fun hm => ?_).trans hk
    rw [List.map_map] at hm
    obtain ⟨e, he, rfl⟩ := List.mem_map.mp hm
    exact hids.not_mem hclear.wf he (OrdDict.mem_keys.mpr (Option.isSome_iff_exists.mpr ⟨row, hk⟩))
  refine ⟨fun t ht => Nat.lt_add_right _ (hclear.wf.template_lt t ht), fun t ht => ?_, fun k hk => ?_, fun k hk => ?_⟩
  · rcases (OrdDict.mem_keys_insertAll _ _).mp ht with ht | ht
    · rw [List.map_map] at ht
      obtain ⟨e, he, rfl⟩ := List.mem_map.mp ht
      exact (hids.fresh e he).2
    · exact Nat.lt_add_right _ (hclear.wf.task_lt t ht)
  · refine OrdDict.mem_keys.mpr (Option.isSome_iff_exists.mpr ?_)
    rcases (OrdDict.mem_keys_insertAll _ _).mp hk with hk | hk
    · obtain ⟨r, hr, rfl⟩ := List.mem_map.mp hk
      obtain ⟨e, he, hr⟩ := List.mem_flatMap.mp hr
      obtain ⟨a, -, rfl⟩ := List.mem_map.mp hr
      exact ⟨_, hnew e he⟩
    · obtain ⟨row, hrow⟩ := Option.isSome_iff_exists.mp (OrdDict.mem_keys.mp (hclear.wf.assignee_task k hk))
      exact ⟨row, hold _ _ hrow⟩
  · rcases (OrdDict.mem_keys_insertAll _ _).mp hk with hk | hk
    · obtain ⟨r, hr, rfl⟩ := List.mem_map.mp hk
      obtain ⟨e, he, hr⟩ := List.mem_flatMap.mp hr
      obtain ⟨l, hl, rfl⟩ := List.mem_map.mp hr
      obtain ⟨f, hf, hfl⟩ := List.mem_map.mp ((hdoc.links_ords he).2 l.1 (List.mem_map_of_mem hl))
      refine ⟨e.row templateId, f.row templateId, hnew e he, ?_, rfl⟩
      exact hfl ▸ hnew f hf
    · obtain ⟨row, row', hrow, hrow', heq⟩ := hclear.wf.dependency_tasks k hk
      exact ⟨row, row', hold _ _ hrow, hold _ _ hrow', heq⟩

end Read

section Instance

variable {code : String} {entries : List TaskEntry} {people : OrdDict String UUID} {projectId : UUID} {ids : List UUID}

theorem edges_spec (e : TaskEntry) (people : OrdDict String UUID) :
    (e.spec people).edges = e.links.map fun l => ⟨e.ord, l.1, l.2.linkType, l.2.lag⟩ := by
  refine List.ext_getElem (by simp [TemplateTaskSpec.edges, TaskEntry.spec]) fun i hi hi' => ?_
  rw [List.length_map] at hi'
  simp [TemplateTaskSpec.edges, TaskEntry.spec, hi']

/-- The template that was read back, under ids that were drawn for it. -/
theorem instantiate_document (hdoc : Document people entries) (hids : ids.Nodup) (hlen : ids.length = entries.length) :
    ∃ tasks deps id, instantiate ⟨code, (entries.insertionSort fun a b => a.ord ≤ b.ord).map fun e => e.spec people⟩
        projectId ids = .ok (tasks, deps) ∧
      InstanceOf people entries projectId id tasks deps ∧ tasks.map Task.id = ids := by
  have hsort := List.perm_insertionSort (fun a b : TaskEntry => a.ord ≤ b.ord) entries
  obtain ⟨sorted, hsorted⟩ : ∃ sorted, sorted = entries.insertionSort fun a b => a.ord ≤ b.ord := ⟨_, rfl⟩
  rw [← hsorted] at hsort ⊢
  have hords : (sorted.map TaskEntry.ord).Nodup := (hsort.map _).nodup_iff.mpr hdoc.ords
  have hlen' : (sorted.map TaskEntry.ord).length = ids.length := by rw [List.length_map, hsort.length_eq, hlen]
  have hread := OrdDict.map_getD_ofList_zip hords hlen' 0
  have hmap : (sorted.map fun e => e.spec people).map TemplateTaskSpec.ord = sorted.map TaskEntry.ord :=
    List.map_map ..
  obtain ⟨ordToId, hord⟩ : ∃ ordToId, ordToId = OrdDict.ofList ((sorted.map TaskEntry.ord).zip ids) := ⟨_, rfl⟩
  rw [← hord, List.map_map] at hread
  have hedges : (⟨code, sorted.map fun e => e.spec people⟩ : ProjectTemplate).edges =
      sorted.flatMap fun e => e.links.map fun l => ⟨e.ord, l.1, l.2.linkType, l.2.lag⟩ := by
    rw [ProjectTemplate.edges, List.flatMap_map]
    exact List.flatMap_congr fun e _ => edges_spec e people
  have hknown : (sorted.flatMap fun e => e.links.map fun l =>
      (⟨e.ord, l.1, l.2.linkType, l.2.lag⟩ : TemplateEdge)).all (fun e => ordToId.contains e.dependsOnOrd) = true := by
    refine List.all_eq_true.mpr fun edge hedge => OrdDict.contains_iff.mpr ?_
    obtain ⟨e, he, hedge⟩ := List.mem_flatMap.mp hedge
    obtain ⟨l, hl, rfl⟩ := List.mem_map.mp hedge
    rw [hord, OrdDict.mem_keys_ofList, List.map_fst_zip (Nat.le_of_eq hlen')]
    exact (hsort.map _).symm.subset ((hdoc.links_ords (hsort.subset he)).2 l.1 (List.mem_map_of_mem hl))
  have hinst : instantiate ⟨code, sorted.map fun e => e.spec people⟩ projectId ids =
      .ok (sorted.map fun e => e.task people projectId (ordToId.getD e.ord 0),
        sorted.flatMap fun e => e.links.map fun l =>
          ⟨ordToId.getD e.ord 0, ordToId.getD l.1 0, l.2.linkType, l.2.lag⟩) := by
    unfold instantiate
    simp only [Planner.ordToId, hmap, ← hord, hedges, hknown, if_true, List.map_map, List.map_flatMap]
    rfl
  refine ⟨_, _, (ordToId.getD · 0), hinst, ⟨fun e he f hf hef => ?_, hsort.map _, hsort.flatMap_right _⟩, ?_⟩
  · exact List.inj_on_of_nodup_map (hread ▸ hids) (hsort.symm.subset he) (hsort.symm.subset hf) hef
  · rw [List.map_map]
    exact hread

/-- No dependency leaves the tasks of the document. -/
theorem InstanceOf.within {id : Int → UUID} {tasks : List Task} {deps : List Dependency}
    (h : InstanceOf people entries projectId id tasks deps) (hdoc : Document people entries) :
    ∀ d ∈ deps, d.taskId ∈ tasks.map Task.id ∧ d.dependsOnId ∈ tasks.map Task.id := by
  have hend : ∀ ord ∈ entries.map TaskEntry.ord, id ord ∈ tasks.map Task.id := by
    intro ord hord
    obtain ⟨e, he, rfl⟩ := List.mem_map.mp hord
    exact List.mem_map.mpr ⟨_, h.tasks.symm.subset (List.mem_map_of_mem he), rfl⟩
  intro d hd
  obtain ⟨e, he, hd⟩ := List.mem_flatMap.mp (h.deps.subset hd)
  obtain ⟨l, hl, rfl⟩ := List.mem_map.mp hd
  exact ⟨hend _ (List.mem_map_of_mem he), hend _ ((hdoc.links_ords he).2 _ (List.mem_map_of_mem hl))⟩

end Instance

/-- A document is loaded over whatever was there for its code, read back and
instantiated as its own graph, every time under ids of its own; the tables are
ready for the next one. -/
theorem template_pipeline (s : Store) (hs : s.TemplatesWF) (code : String) (entries : List TaskEntry)
    (people : OrdDict String UUID) (hpeople : ∀ name p, people.get? name = some p → p ∈ s.people.keys)
    (hdoc : Document people entries) :
    ∃ s' template, s.loadTemplate code entries people = .ok s' ∧ s'.TemplatesWF ∧
      s'.projectTemplate code = some template ∧ ∀ projectId s₁, ∃ tasks deps s₂ id,
        (instantiateTemplate template projectId).run s₁ = (.ok (tasks, deps), s₂) ∧
        InstanceOf people entries projectId id tasks deps ∧ (tasks.map Task.id).Nodup ∧
        (∀ d ∈ deps, d.taskId ∈ tasks.map Task.id ∧ d.dependsOnId ∈ tasks.map Task.id) ∧
        ∀ projectId' s₃ tasks' deps' s₄, s₂.nextId ≤ s₃.nextId →
          (instantiateTemplate template projectId').run s₃ = (.ok (tasks', deps'), s₄) →
          ∀ t ∈ tasks, ∀ t' ∈ tasks', t.id ≠ t'.id := by
  obtain ⟨base, templateId, taskId, hclear, hids, hload⟩ := @loadTemplate_ok _ code _ _ hs hdoc hpeople
  refine ⟨_, _, hload, templatesWF_loaded hclear hdoc hids, projectTemplate_loaded hclear hdoc hids,
    fun projectId s₁ => ?_⟩
  have hlen : (entries.insertionSort fun a b => a.ord ≤ b.ord).length = entries.length :=
    (List.perm_insertionSort _ entries).length_eq
  obtain ⟨tasks, deps, id, hinst, hgraph, hdrawn⟩ := @instantiate_document code entries people projectId
    (List.range' s₁.nextId entries.length) hdoc List.nodup_range' List.length_range'
  have hrun : ∀ s₁ projectId, (instantiateTemplate ⟨code, (entries.insertionSort fun a b => a.ord ≤ b.ord).map
      fun e => e.spec people⟩ projectId).run s₁ = (instantiate ⟨code, (entries.insertionSort fun a b =>
        a.ord ≤ b.ord).map fun e => e.spec people⟩ projectId (List.range' s₁.nextId entries.length),
          s₁.drawn entries.length) := by
    intro s₁ projectId
    simp only [instantiateTemplate, uuid4s, Program.run_bind, Program.run_call, Program.run_ofExcept,
      List.length_map, hlen]
  refine ⟨tasks, deps, _, id, (hrun s₁ projectId).trans (by rw [hinst]), hgraph, hdrawn ▸ List.nodup_range',
    hgraph.within hdoc, fun projectId' s₃ tasks' deps' s₄ hle hrun' t ht t' ht' heq => ?_⟩
  rw [hrun] at hrun'
  obtain ⟨hinst', -⟩ := Prod.mk.inj hrun'
  have hid := instantiate_ids hinst' (by simp [hlen]) t' ht'
  have hid' : t.id ∈ List.range' s₁.nextId entries.length := hdrawn ▸ List.mem_map_of_mem ht
  rw [List.mem_range'_1] at hid hid'
  have hdrawn' : (s₁.drawn entries.length).nextId = s₁.nextId + entries.length := rfl
  rw [hdrawn'] at hle
  exact Nat.lt_irrefl _ ((hid'.2.trans_le (hle.trans hid.1)).trans_eq heq.symm)

/-- Shooting, and a cut that waits two days for it. -/
def reelEntries : List TaskEntry := [
  { ord := 2, name := "Монтаж", durationHours := 16, isSplittable := some true
    dependsOn := [.mapping 1 none (some 2)] },
  { ord := 1, name := "Съёмка", durationHours := 8, pairMode := some "optional"
    assignees := [⟨"Борис", "B", some 1⟩, ⟨"Анна", "A", some 0⟩] }]

def reelPeople : OrdDict String UUID := (OrdDict.empty.insert "Анна" 1).insert "Борис" 2

/-- An earlier version of the template is there, with one task. -/
def reelStore : Store where
  people := (OrdDict.empty.insert 1 { name := "Анна" }).insert 2 { name := "Борис" }
  templates := OrdDict.empty.insert 3 "lite"
  templateTasks := OrdDict.empty.insert 4
    { templateId := 3, ord := 1, name := "Съёмка", durationHours := 8 }
  templateTaskAssignees := OrdDict.empty.insert (4, 1) { strictness := .A }
  nextId := 5

theorem template_pipeline_reel : ∃ s' template,
    reelStore.loadTemplate "lite" reelEntries reelPeople = .ok s' ∧ s'.TemplatesWF ∧
      s'.projectTemplate "lite" = some template ∧ ∀ projectId s₁, ∃ tasks deps s₂ id,
        (instantiateTemplate template projectId).run s₁ = (.ok (tasks, deps), s₂) ∧
        InstanceOf reelPeople reelEntries projectId id tasks deps ∧ (tasks.map Task.id).Nodup ∧
        (∀ d ∈ deps, d.taskId ∈ tasks.map Task.id ∧ d.dependsOnId ∈ tasks.map Task.id) ∧
        ∀ projectId' s₃ tasks' deps' s₄, s₂.nextId ≤ s₃.nextId →
          (instantiateTemplate template projectId').run s₃ = (.ok (tasks', deps'), s₄) →
          ∀ t ∈ tasks, ∀ t' ∈ tasks', t.id ≠ t'.id := by
  have hall : ∀ p ∈ reelPeople.values, p ∈ reelStore.people.keys := by decide
  exact template_pipeline reelStore ⟨by decide, by decide, by decide, nofun⟩ "lite" reelEntries reelPeople
    (fun name p hp => hall p (OrdDict.mem_values.mpr ⟨name, hp⟩)) (by constructor <;> decide)

end Planner
