import Planner.AddProject
import Planner.LoadSeed

/-! What a template document leaves in the tables: a row for each of its tasks,
assignees and dependencies, in place of an earlier version. -/

namespace Planner

section Document

/-- An assignee with the priority that is stored. -/
def TaskEntry.ranked (entry : TaskEntry) : List (AssigneeEntry × Int) :=
  entry.assignees.zipIdx.map fun (asgn, idx) => (asgn, asgn.priority.getD idx)

/-- The people of an entry in its priority order. -/
def TaskEntry.allowed (entry : TaskEntry) (people : OrdDict String UUID) : List UUID :=
  (entry.ranked.insertionSort fun a b => a.2 ≤ b.2).filterMap fun a => people.get? a.1.name

/-- What an entry depends on, by ord. -/
def TaskEntry.links (entry : TaskEntry) : List (Int × Link) :=
  entry.dependsOn.filterMap fun dep =>
    (LinkType.ofColumn? (depFields dep).2.1).map fun linkType => ((depFields dep).1, ⟨linkType, (depFields dep).2.2⟩)

/-- A template document: an ord for every task, dependencies between them, known assignees. -/
structure Document (people : OrdDict String UUID) (entries : List TaskEntry) : Prop where
  ords : (entries.map TaskEntry.ord).Nodup
  known : ∀ e ∈ entries, ∀ a ∈ e.assignees, a.name ∈ people.keys
  once : ∀ e ∈ entries, (e.assignees.map fun a => people.get? a.name).Nodup
  priorities : ∀ e ∈ entries, (e.ranked.map Prod.snd).Nodup
  strictness : ∀ e ∈ entries, ∀ a ∈ e.assignees, a.strictness ∈ ["A", "B", "C"]
  within : ∀ e ∈ entries, ∀ d ∈ e.dependsOn, (depFields d).1 ∈ entries.map TaskEntry.ord
  single : ∀ e ∈ entries, (e.dependsOn.map fun d => (depFields d).1).Nodup
  links : ∀ e ∈ entries, ∀ d ∈ e.dependsOn, (depFields d).2.1 ∈ ["FS", "SS"]

end Document

/-- The template tables: keys drawn so far, and child rows within one template. -/
structure Store.TemplatesWF (s : Store) : Prop where
  template_lt : ∀ t ∈ s.templates.keys, t < s.nextId
  task_lt : ∀ t ∈ s.templateTasks.keys, t < s.nextId
  assignee_task : ∀ k ∈ s.templateTaskAssignees.keys, k.1 ∈ s.templateTasks.keys
  dependency_tasks : ∀ k ∈ s.templateDependencies.keys, ∃ row row', s.templateTasks.get? k.1 = some row ∧
    s.templateTasks.get? k.2 = some row' ∧ row.templateId = row'.templateId

section Load

theorem mapM_ok {α β : Type} {f : α → Except PlannerError β} {g : α → β} {l : List α}
    (h : ∀ a ∈ l, f a = .ok (g a)) : l.mapM f = .ok (l.map g) := by
  induction l with
  | nil => rfl
  | cons a l ih =>
    rw [List.mapM_cons, h a List.mem_cons_self, ih fun b hb => h b (List.mem_cons_of_mem _ hb)]
    rfl

theorem insertRows_ok {κ ν : Type} [DecidableEq κ] {rows : List (κ × ν)} {table : OrdDict κ ν}
    (hnodup : (rows.map Prod.fst).Nodup) (hnew : ∀ k ∈ rows.map Prod.fst, k ∉ table.keys) :
    insertRows table rows = .ok (table.insertAll rows) := by
  induction rows generalizing table with
  | nil => rfl
  | cons row rows ih =>
    obtain ⟨k, v⟩ := row
    simp only [List.map_cons, List.nodup_cons] at hnodup
    rw [insertRows, if_neg (hnew k List.mem_cons_self), OrdDict.insertAll_cons]
    refine ih hnodup.2 fun k' hk' hk => ?_
    rcases OrdDict.mem_keys_insert.mp hk with rfl | hk
    · exact hnodup.1 hk'
    · exact hnew k' (List.mem_cons_of_mem _ hk') hk

theorem filter_flatMap_tag {α β κ : Type} [DecidableEq κ] {l : List α} {f : α → List β} {key : α → κ} (tag : β → κ)
    (hnodup : (l.map key).Nodup) (htag : ∀ a ∈ l, ∀ b ∈ f a, tag b = key a) {a : α} (ha : a ∈ l) :
    (l.flatMap f).filter (fun b => tag b = key a) = f a := by
  induction l with
  | nil => cases ha
  | cons c l ih =>
    obtain ⟨hc, hl⟩ := List.nodup_cons.mp hnodup
    have htail := fun d hd => htag d (List.mem_cons_of_mem _ hd)
    rw [List.flatMap_cons, List.filter_append]
    by_cases hca : key c = key a
    · obtain rfl : a = c := by
        rcases List.mem_cons.mp ha with h | h
        · exact h
        · exact absurd (hca ▸ List.mem_map_of_mem h) hc
      have hself : (f a).filter (fun b => tag b = key a) = f a :=
        List.filter_eq_self.mpr fun b hb => by simpa using htag a List.mem_cons_self b hb
      have hrest : (l.flatMap f).filter (fun b => tag b = key a) = [] := by
        refine List.filter_eq_nil_iff.mpr fun b hb hba => hc ?_
        obtain ⟨d, hd, hb⟩ := List.mem_flatMap.mp hb
        rw [← of_decide_eq_true hba, htail d hd b hb]
        exact List.mem_map_of_mem hd
      rw [hself, hrest, List.append_nil]
    · have hhead : (f c).filter (fun b => tag b = key a) = [] := by
        refine List.filter_eq_nil_iff.mpr fun b hb hba => hca ?_
        rw [← htag c List.mem_cons_self b hb]
        exact of_decide_eq_true hba
      have ha' : a ∈ l := (List.mem_cons.mp ha).resolve_left fun h => hca (h ▸ rfl)
      rw [hhead, List.nil_append, ih hl htail ha']

theorem nodup_flatMap_tag {α β κ : Type} {l : List α} {f : α → List β} {key : α → κ} (tag : β → κ)
    (hnodup : (l.map key).Nodup) (htag : ∀ a ∈ l, ∀ b ∈ f a, tag b = key a)
    (heach : ∀ a ∈ l, (f a).Nodup) : (l.flatMap f).Nodup := by
  refine List.nodup_flatMap.mpr ⟨heach, (List.pairwise_map.mp hnodup).imp_of_mem fun ha hb hne => ?_⟩
  intro x hx hy
  exact hne ((htag _ ha x hx).symm.trans (htag _ hb x hy))

end Load

section Rows

variable {people : OrdDict String UUID} {entries : List TaskEntry}

/-- The assignee rows of an entry. -/
def TaskEntry.assigned (entry : TaskEntry) (people : OrdDict String UUID) (taskId : UUID) :
    List ((UUID × UUID) × AssigneeRow) :=
  entry.ranked.map fun a =>
    ((taskId, people.getD a.1.name 0), ⟨(Strictness.ofColumn? a.1.strictness).getD .A, a.2⟩)

/-- The dependency rows of an entry. -/
def TaskEntry.linked (entry : TaskEntry) (taskId : Int → UUID) : List ((UUID × UUID) × Link) :=
  entry.links.map fun l => ((taskId entry.ord, taskId l.1), l.2)

theorem LinkType.ofColumn?_some {text : String} (h : text ∈ ["FS", "SS"]) :
    LinkType.ofColumn? text = some ((LinkType.ofColumn? text).getD .FS) := by
  simp only [List.mem_cons, List.not_mem_nil, or_false] at h
  rcases h with rfl | rfl <;> rfl

theorem Strictness.ofColumn?_some {text : String} (h : text ∈ ["A", "B", "C"]) :
    Strictness.ofColumn? text = some ((Strictness.ofColumn? text).getD .A) := by
  simp only [List.mem_cons, List.not_mem_nil, or_false] at h
  rcases h with rfl | rfl | rfl <;> rfl

namespace Document

theorem links_eq (h : Document people entries) {e : TaskEntry} (he : e ∈ entries) : e.links =
    e.dependsOn.map fun dep => ((depFields dep).1,
      ⟨(LinkType.ofColumn? (depFields dep).2.1).getD .FS, (depFields dep).2.2⟩) := by
  refine List.filterMap_eq_map_iff_forall_eq_some.mpr fun d hd => ?_
  rw [LinkType.ofColumn?_some (h.links e he d hd)]
  rfl

theorem links_ords (h : Document people entries) {e : TaskEntry} (he : e ∈ entries) :
    (e.links.map Prod.fst).Nodup ∧ ∀ ord ∈ e.links.map Prod.fst, ord ∈ entries.map TaskEntry.ord := by
  rw [h.links_eq he, List.map_map]
  refine ⟨h.single e he, fun ord hord => ?_⟩
  obtain ⟨d, hd, rfl⟩ := List.mem_map.mp hord
  exact h.within e he d hd

theorem person (h : Document people entries) {e : TaskEntry} (he : e ∈ entries) {a : AssigneeEntry}
    (ha : a ∈ e.assignees) : people.get? a.name = some (people.getD a.name 0) := by
  obtain ⟨p, hp⟩ := Option.isSome_iff_exists.mp (OrdDict.mem_keys.mp (h.known e he a ha))
  rw [OrdDict.getD, hp, Option.getD_some]

end Document

theorem map_fst_ranked (e : TaskEntry) : e.ranked.map Prod.fst = e.assignees := by
  rw [TaskEntry.ranked, List.map_map]
  exact List.zipIdx_map_fst 0 e.assignees

theorem mem_of_ranked {e : TaskEntry} {a : AssigneeEntry × Int} (ha : a ∈ e.ranked) : a.1 ∈ e.assignees :=
  map_fst_ranked e ▸ List.mem_map_of_mem ha

end Rows

/-- Tables in which a template has its row and no tasks. -/
structure Store.Cleared (s : Store) (code : String) (templateId : UUID) : Prop where
  wf : s.TemplatesWF
  found : s.templateIdOf code = some templateId
  lt : templateId < s.nextId
  no_tasks : ∀ e ∈ s.templateTasks.entries, e.2.templateId ≠ templateId

section Clear

variable {s : Store} {code : String}

theorem upsertTemplate_spec (hs : s.TemplatesWF) :
    (s.upsertTemplate code).2.TemplatesWF ∧ (s.upsertTemplate code).2.people = s.people ∧
      (s.upsertTemplate code).2.templateIdOf code = some (s.upsertTemplate code).1 ∧
      (s.upsertTemplate code).1 < (s.upsertTemplate code).2.nextId := by
  unfold Store.upsertTemplate
  split
  · rename_i templateId hid
    refine ⟨hs, rfl, hid, hs.template_lt _ ?_⟩
    obtain ⟨e, he, rfl⟩ := Option.map_eq_some_iff.mp hid
    exact List.mem_map_of_mem (List.mem_of_find?_eq_some he)
  · rename_i hnone
    have hnew : s.nextId ∉ s.templates.keys := fun hk => Nat.lt_irrefl _ (hs.template_lt _ hk)
    refine ⟨⟨fun t ht => ?_, fun t ht => Nat.lt_succ_of_lt (hs.task_lt t ht), hs.assignee_task,
      hs.dependency_tasks⟩, rfl, ?_, Nat.lt_succ_self _⟩
    · rcases OrdDict.mem_keys_insert.mp ht with rfl | ht
      · exact Nat.lt_succ_self _
      · exact Nat.lt_succ_of_lt (hs.template_lt t ht)
    · have hfind : s.templates.entries.find? (fun e => e.2 = code) = none := Option.map_eq_none_iff.mp hnone
      rw [Store.templateIdOf, OrdDict.entries_insert_of_not_mem hnew, List.find?_append, hfind]
      simp

theorem dropChildren_spec (hs : s.TemplatesWF) {templateId : UUID} (hfound : s.templateIdOf code = some templateId)
    (hlt : templateId < s.nextId) :
    ∃ base, s.dropChildren templateId = .ok base ∧ base.Cleared code templateId ∧ base.people = s.people := by
  have hgone : ∀ {k : UUID} {row : TemplateTaskRow}, s.templateTasks.get? k = some row →
      (k ∈ (s.templateTasks.filter fun _ row => row.templateId = templateId).keys ↔
        row.templateId = templateId) := by
    intro k row hk
    rw [OrdDict.mem_keys, OrdDict.get?_filter, hk]
    by_cases h : row.templateId = templateId <;> simp [h]
  have hkept : ∀ {k : UUID} {row : TemplateTaskRow}, s.templateTasks.get? k = some row →
      row.templateId ≠ templateId →
      (s.templateTasks.filter fun _ row => row.templateId ≠ templateId).get? k = some row := by
    intro k row hk hne
    rw [OrdDict.get?_filter, hk]
    simp [hne]
  have hstay : ∀ {k : UUID}, k ∈ s.templateTasks.keys →
      k ∉ (s.templateTasks.filter fun _ row => row.templateId = templateId).keys →
      ∃ row, s.templateTasks.get? k = some row ∧ row.templateId ≠ templateId ∧
        (s.templateTasks.filter fun _ row => row.templateId ≠ templateId).get? k = some row := by
    intro k hk hno
    obtain ⟨row, hrow⟩ := Option.isSome_iff_exists.mp (OrdDict.mem_keys.mp hk)
    have hne : row.templateId ≠ templateId := fun he => hno ((hgone hrow).mpr he)
    exact ⟨row, hrow, hne, hkept hrow hne⟩
  -- the two ends of a dependency row go together
  have hdeps : ∀ k ∈ (s.templateDependencies.filter fun k _ =>
      k.1 ∉ (s.templateTasks.filter fun _ row => row.templateId = templateId).keys).keys,
      ∃ row row', (s.templateTasks.filter fun _ row => row.templateId ≠ templateId).get? k.1 = some row ∧
        (s.templateTasks.filter fun _ row => row.templateId ≠ templateId).get? k.2 = some row' ∧
        row.templateId = row'.templateId ∧
        k.2 ∉ (s.templateTasks.filter fun _ row => row.templateId = templateId).keys := by
    intro k hk
    obtain ⟨v, hv⟩ := Option.isSome_iff_exists.mp (OrdDict.mem_keys.mp hk)
    rw [OrdDict.get?_filter, Option.filter_eq_some_iff] at hv
    obtain ⟨row, row', hrow, hrow', heq⟩ := hs.dependency_tasks k (OrdDict.mem_keys.mpr (by simp [hv.1]))
    have hne : row.templateId ≠ templateId := fun he => of_decide_eq_true hv.2 ((hgone hrow).mpr he)
    exact ⟨row, row', hkept hrow hne, hkept hrow' (heq ▸ hne), heq,
      fun hm => hne (heq.trans ((hgone hrow').mp hm))⟩
  have hany : ¬ (s.templateDependencies.filter fun k _ =>
      k.1 ∉ (s.templateTasks.filter fun _ row => row.templateId = templateId).keys).keys.any (fun k =>
        k.2 ∈ (s.templateTasks.filter fun _ row => row.templateId = templateId).keys) = true := by
    intro hany
    obtain ⟨k, hk, hm⟩ := List.any_eq_true.mp hany
    obtain ⟨-, -, -, -, -, hno⟩ := hdeps k hk
    exact hno (of_decide_eq_true hm)
  refine ⟨_, if_neg hany, ⟨⟨hs.template_lt, fun t ht => hs.task_lt t (OrdDict.mem_keys_filter ht),
    fun k hk => ?_, fun k hk => ?_⟩, hfound, hlt, fun e he => ?_⟩, rfl⟩
  · obtain ⟨v, hv⟩ := Option.isSome_iff_exists.mp (OrdDict.mem_keys.mp hk)
    rw [OrdDict.get?_filter, Option.filter_eq_some_iff] at hv
    obtain ⟨row, -, -, hrow⟩ := hstay (hs.assignee_task k (OrdDict.mem_keys.mpr (by simp [hv.1])))
      (of_decide_eq_true hv.2)
    exact OrdDict.mem_keys.mpr (Option.isSome_iff_exists.mpr ⟨row, hrow⟩)
  · obtain ⟨row, row', hrow, hrow', heq, -⟩ := hdeps k hk
    exact ⟨row, row', hrow, hrow', heq⟩
  · exact of_decide_eq_true (List.mem_filter.mp he).2

end Clear

/-- The rows of a document under fresh ids, one for each ord. -/
def Store.loaded (base : Store) (templateId : UUID) (entries : List TaskEntry) (people : OrdDict String UUID)
    (taskId : Int → UUID) : Store :=
  { base with
    templateTasks := base.templateTasks.insertAll (entries.map fun e => (taskId e.ord, e.row templateId))
    nextId := base.nextId + entries.length
    templateTaskAssignees :=
      base.templateTaskAssignees.insertAll (entries.flatMap fun e => e.assigned people (taskId e.ord))
    templateDependencies := base.templateDependencies.insertAll (entries.flatMap fun e => e.linked taskId) }

/-- An id for every ord, none of them drawn before. -/
structure FreshIds (base : Store) (entries : List TaskEntry) (taskId : Int → UUID) : Prop where
  nodup : (entries.map fun e => taskId e.ord).Nodup
  fresh : ∀ e ∈ entries, base.nextId ≤ taskId e.ord ∧ taskId e.ord < base.nextId + entries.length

theorem FreshIds.injective {base : Store} {entries : List TaskEntry} {taskId : Int → UUID}
    (h : FreshIds base entries taskId) {a b : Int} (ha : a ∈ entries.map TaskEntry.ord)
    (hb : b ∈ entries.map TaskEntry.ord) (hab : taskId a = taskId b) : a = b := by
  obtain ⟨e, he, rfl⟩ := List.mem_map.mp ha
  obtain ⟨f, hf, rfl⟩ := List.mem_map.mp hb
  rw [List.inj_on_of_nodup_map h.nodup he hf hab]

theorem FreshIds.not_mem {base : Store} {entries : List TaskEntry} {taskId : Int → UUID}
    (h : FreshIds base entries taskId) (hwf : base.TemplatesWF) {e : TaskEntry} (he : e ∈ entries) :
    taskId e.ord ∉ base.templateTasks.keys := fun hk =>
  Nat.lt_irrefl _ ((hwf.task_lt _ hk).trans_le (h.fresh e he).1)

section LoadOk

variable {s base : Store} {code : String} {templateId : UUID} {entries : List TaskEntry}
  {people : OrdDict String UUID} {taskId : Int → UUID}

theorem nodup_assigned (hdoc : Document people entries) (hids : FreshIds base entries taskId) :
    ((entries.flatMap fun e => e.assigned people (taskId e.ord)).map Prod.fst).Nodup := by
  rw [List.map_flatMap]
  refine nodup_flatMap_tag Prod.fst hids.nodup (fun e _ k hk => ?_) fun e he => ?_
  · obtain ⟨r, hr, rfl⟩ := List.mem_map.mp hk
    obtain ⟨a, -, rfl⟩ := List.mem_map.mp hr
    rfl
  · have hpersons : (e.assignees.map fun a => people.getD a.name 0).Nodup := by
      have honce := hdoc.once e he
      have hsome : (e.assignees.map fun a => people.get? a.name) =
          (e.assignees.map fun a => people.getD a.name 0).map some := by
        rw [List.map_map]
        exact List.map_congr_left fun a ha => hdoc.person he ha
      rw [hsome] at honce
      exact honce.of_map _
    rw [← map_fst_ranked, List.map_map] at hpersons
    have hkeys := hpersons.map (Prod.mk_right_injective (taskId e.ord))
    rw [List.map_map] at hkeys
    rwa [TaskEntry.assigned, List.map_map]

theorem nodup_linked (hdoc : Document people entries) (hids : FreshIds base entries taskId) :
    ((entries.flatMap fun e => e.linked taskId).map Prod.fst).Nodup := by
  rw [List.map_flatMap]
  refine nodup_flatMap_tag Prod.fst hids.nodup (fun e _ k hk => ?_) fun e he => ?_
  · obtain ⟨r, hr, rfl⟩ := List.mem_map.mp hk
    obtain ⟨l, -, rfl⟩ := List.mem_map.mp hr
    rfl
  · obtain ⟨hnodup, hwithin⟩ := hdoc.links_ords he
    have hends : ((e.links.map Prod.fst).map taskId).Nodup :=
      hnodup.map_on fun a ha b hb hab => hids.injective (hwithin a ha) (hwithin b hb) hab
    have hkeys := hends.map (Prod.mk_right_injective (taskId e.ord))
    rw [List.map_map, List.map_map] at hkeys
    rwa [TaskEntry.linked, List.map_map]

theorem assigneeRows_ok (hdoc : Document people entries) (t : UUID) {e : TaskEntry} (he : e ∈ entries) :
    assigneeRows people t e = .ok (e.ranked.map fun a => ((t, people.getD a.1.name 0), a.1.strictness, a.2)) := by
  rw [assigneeRows, TaskEntry.ranked, List.map_map]
  refine mapM_ok fun a ha => ?_
  have hperson := hdoc.person he (List.fst_mem_of_mem_zipIdx ha)
  simp only [hperson]
  rfl

theorem dependencyRows_ok (hdoc : Document people entries) {ordToTask : OrdDict Int UUID}
    (hord : ∀ ord ∈ entries.map TaskEntry.ord, ord ∈ ordToTask.keys) (t : UUID) {e : TaskEntry} (he : e ∈ entries) :
    dependencyRows ordToTask t e =
      .ok (e.dependsOn.map fun d => ((t, ordToTask.getD (depFields d).1 0), (depFields d).2)) := by
  refine mapM_ok fun d hd => ?_
  obtain ⟨i, hi⟩ := Option.isSome_iff_exists.mp (OrdDict.mem_keys.mp (hord _ (hdoc.within e he d hd)))
  simp only [hi, OrdDict.getD, Option.getD_some]

theorem assigned_new (hwf : base.TemplatesWF) (hids : FreshIds base entries taskId) :
    ∀ k ∈ (entries.flatMap fun e => e.assigned people (taskId e.ord)).map Prod.fst,
      k ∉ base.templateTaskAssignees.keys := by
  intro k hk hbase
  obtain ⟨row, hrow, rfl⟩ := List.mem_map.mp hk
  obtain ⟨e, he, hrow⟩ := List.mem_flatMap.mp hrow
  obtain ⟨a, -, rfl⟩ := List.mem_map.mp hrow
  exact hids.not_mem hwf he (hwf.assignee_task _ hbase)

theorem linked_new (hwf : base.TemplatesWF) (hids : FreshIds base entries taskId) :
    ∀ k ∈ (entries.flatMap fun e => e.linked taskId).map Prod.fst, k ∉ base.templateDependencies.keys := by
  intro k hk hbase
  obtain ⟨row, hrow, rfl⟩ := List.mem_map.mp hk
  obtain ⟨e, he, hrow⟩ := List.mem_flatMap.mp hrow
  obtain ⟨l, -, rfl⟩ := List.mem_map.mp hrow
  obtain ⟨_, -, hfound, -⟩ := hwf.dependency_tasks _ hbase
  exact hids.not_mem hwf he (OrdDict.mem_keys.mpr (by simp [hfound]))

theorem checkAssignees_ok (hdoc : Document people entries) {persons : List UUID}
    (hpeople : ∀ name p, people.get? name = some p → p ∈ persons) :
    ((entries.map fun e => e.ranked.map fun a =>
      ((taskId e.ord, people.getD a.1.name 0), a.1.strictness, a.2)).flatten.mapM (checkAssignee persons)) =
      .ok (entries.flatMap fun e => e.assigned people (taskId e.ord)) := by
  have hall : ∀ row ∈ (entries.map fun e => e.ranked.map fun a =>
      ((taskId e.ord, people.getD a.1.name 0), a.1.strictness, a.2)).flatten,
      checkAssignee persons row = .ok (row.1, ⟨(Strictness.ofColumn? row.2.1).getD .A, row.2.2⟩) := by
    intro row hrow
    obtain ⟨l, hl, hrow⟩ := List.mem_flatten.mp hrow
    obtain ⟨e, he, rfl⟩ := List.mem_map.mp hl
    obtain ⟨a, ha, rfl⟩ := List.mem_map.mp hrow
    have hmem := hpeople _ _ (hdoc.person he (mem_of_ranked ha))
    rw [checkAssignee, Strictness.ofColumn?_some (hdoc.strictness e he a.1 (mem_of_ranked ha))]
    exact if_pos hmem
  rw [mapM_ok hall, List.map_flatten, List.map_map, List.flatMap_def]
  simp only [Function.comp_def, List.map_map]
  rfl

theorem checkDependencies_ok (hdoc : Document people entries) :
    ((entries.map fun e => e.dependsOn.map fun d =>
      ((taskId e.ord, taskId (depFields d).1), (depFields d).2)).flatten.mapM checkDependency) =
      .ok (entries.flatMap fun e => e.linked taskId) := by
  have hall : ∀ row ∈ (entries.map fun e => e.dependsOn.map fun d =>
      ((taskId e.ord, taskId (depFields d).1), (depFields d).2)).flatten,
      checkDependency row = .ok (row.1, ⟨(LinkType.ofColumn? row.2.1).getD .FS, row.2.2⟩) := by
    intro row hrow
    obtain ⟨l, hl, hrow⟩ := List.mem_flatten.mp hrow
    obtain ⟨e, he, rfl⟩ := List.mem_map.mp hl
    obtain ⟨d, hd, rfl⟩ := List.mem_map.mp hrow
    rw [checkDependency, LinkType.ofColumn?_some (hdoc.links e he d hd)]
    rfl
  rw [mapM_ok hall, List.map_flatten, List.map_map, List.flatMap_def]
  refine congrArg (Except.ok ∘ List.flatten) (List.map_congr_left fun e he => ?_)
  rw [TaskEntry.linked, hdoc.links_eq he, List.map_map, Function.comp_apply, List.map_map]
  rfl

theorem loadTemplate_ok (hs : s.TemplatesWF) (hdoc : Document people entries)
    (hpeople : ∀ name p, people.get? name = some p → p ∈ s.people.keys) :
    ∃ base templateId taskId, base.Cleared code templateId ∧ FreshIds base entries taskId ∧
      s.loadTemplate code entries people = .ok (base.loaded templateId entries people taskId) := by
  obtain ⟨hwf, hsame, hfound, hlt⟩ := @upsertTemplate_spec s code hs
  obtain ⟨templateId, hid⟩ : ∃ templateId, templateId = (s.upsertTemplate code).1 := ⟨_, rfl⟩
  rw [← hid] at hfound hlt
  obtain ⟨base, hdrop, hclear, hpersons⟩ := dropChildren_spec hwf hfound hlt
  have hlen : (entries.map TaskEntry.ord).length = (List.range' base.nextId entries.length).length := by simp
  have hget := OrdDict.map_getD_ofList_zip hdoc.ords hlen 0
  obtain ⟨ordToTask, hord⟩ : ∃ ordToTask, ordToTask =
    OrdDict.ofList ((entries.map TaskEntry.ord).zip (List.range' base.nextId entries.length)) := ⟨_, rfl⟩
  rw [← hord, List.map_map] at hget
  have hids : FreshIds base entries (ordToTask.getD · 0) := by
    refine ⟨?_, fun e he => ?_⟩
    · exact hget ▸ List.nodup_range'
    · have hm : ordToTask.getD e.ord 0 ∈ List.range' base.nextId entries.length :=
        hget ▸ List.mem_map_of_mem (f := (fun k => ordToTask.getD k 0) ∘ TaskEntry.ord) he
      exact List.mem_range'_1.mp hm
  refine ⟨base, templateId, _, hclear, hids, ?_⟩
  have hzip : (List.range' base.nextId entries.length).zip (entries.map fun e => e.row templateId) =
      entries.map fun e => (ordToTask.getD e.ord 0, e.row templateId) := by
    rw [← hget, List.zip_map']
    rfl
  have hkeys : ∀ ord ∈ entries.map TaskEntry.ord, ord ∈ ordToTask.keys := fun ord ho => by
    rw [hord, OrdDict.mem_keys_ofList, List.map_fst_zip (Nat.le_of_eq hlen)]
    exact ho
  have hassigned := mapM_ok fun e he => assigneeRows_ok hdoc (ordToTask.getD e.ord 0) he
  have hlinked := mapM_ok fun e he => dependencyRows_ok hdoc hkeys (ordToTask.getD e.ord 0) he
  unfold Store.loadTemplate
  simp only [← hid, hdrop, Except.bind, ← hord, hassigned, hlinked, hzip]
  rw [@checkAssignees_ok entries people (ordToTask.getD · 0) hdoc _ fun name p hp =>
    hpersons ▸ hsame ▸ hpeople name p hp]
  rw [@checkDependencies_ok entries people (ordToTask.getD · 0) hdoc]
  simp only [insertRows_ok (nodup_assigned hdoc hids) (assigned_new hclear.wf hids),
    insertRows_ok (nodup_linked hdoc hids) (linked_new hclear.wf hids)]
  rfl

end LoadOk

end Planner
