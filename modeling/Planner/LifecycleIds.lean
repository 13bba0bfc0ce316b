import Mathlib.Data.Multiset.Bind
import Planner.Lifecycle

/-! The ids that threads have drawn stay apart: no two plan versions share a
project or a task, whatever is proposed at the same time. -/

namespace Planner

/-- The projects that have a version, one entry for each version. -/
def Store.versionProjects (s : Store) : List UUID := s.planVersions.values.map PlanVersionRow.projectId

def Store.plannedTasks (s : Store) : List UUID := s.planAssignments.map Assignment.taskId

/-- No project and no task belongs to two versions, nor to a version and a
proposal under way. -/
structure DistinctIds (s : Store) (m : Multiset Stage) : Prop where
  project_lt : ∀ p ∈ s.projects.keys, p < s.nextId
  version_lt : ∀ v ∈ s.planVersions.keys, v < s.nextId
  version_project : ∀ p ∈ s.versionProjects, p ∈ s.projects.keys
  planned_lt : ∀ t ∈ s.plannedTasks, t < s.nextId
  owned_lt : ∀ k ∈ m, (∀ p ∈ k.projects, p < s.nextId) ∧ ∀ t ∈ k.tasks, t < s.nextId
  projects_nodup : (↑s.versionProjects + m.bind fun k => (k.projects : Multiset UUID)).Nodup
  tasks_nodup : (↑s.plannedTasks + m.bind fun k => (k.tasks : Multiset UUID)).Nodup

theorem nodup_swap {α : Type} {A K K' M : Multiset α} (h : (A + (K + M)).Nodup) (hK' : K'.Nodup)
    (hfresh : ∀ x ∈ K', x ∉ A ∧ x ∉ M) : (A + (K' + M)).Nodup := by
  rw [Multiset.nodup_add] at h ⊢
  obtain ⟨hA, hKM, hd⟩ := h
  rw [Multiset.disjoint_add_right] at hd ⊢
  refine ⟨hA, Multiset.nodup_add.mpr ⟨hK', (Multiset.nodup_add.mp hKM).2.1, ?_⟩, ?_, hd.2⟩
  · exact Multiset.disjoint_left.mpr fun hx => (hfresh _ hx).2
  · exact Multiset.disjoint_right.mpr fun hx => (hfresh _ hx).1

/-- Ids that were there before stay apart, and new ones are above all others. -/
theorem nodup_redraw {A K K' : List UUID} {M : Multiset UUID} {n : UUID} (h : ((A : Multiset UUID) + (K + M)).Nodup)
    (hA : ∀ x ∈ A, x < n) (hM : ∀ x ∈ M, x < n) (hK' : K'.Nodup) (hfresh : ∀ x ∈ K', x ∈ K ∨ n ≤ x) :
    ((A : Multiset UUID) + (K' + M)).Nodup := by
  refine nodup_swap h (Multiset.coe_nodup.mpr hK') fun x hx => ?_
  rcases hfresh x hx with hold | hnew
  · rw [Multiset.nodup_add, Multiset.nodup_add, Multiset.disjoint_left, Multiset.disjoint_left] at h
    exact ⟨fun hxA => h.2.2 hxA (Multiset.mem_add.mpr (Or.inl hold)), fun hxM => h.2.1.2.2 hold hxM⟩
  · exact ⟨fun hxA => absurd (hA x hxA) (Nat.not_lt.mpr hnew), fun hxM => absurd (hM x hxM) (Nat.not_lt.mpr hnew)⟩

section Ids

variable {s s' : Store} {m : Multiset Stage} {k k' : Stage}

theorem DistinctIds.apart (h : DistinctIds s (k ::ₘ m)) :
    (k.projects.Nodup ∧ ∀ p ∈ k.projects, p ∉ s.versionProjects ∧ ∀ o ∈ m, p ∉ o.projects) ∧
      k.tasks.Nodup ∧ ∀ t ∈ k.tasks, t ∉ s.plannedTasks ∧ ∀ o ∈ m, t ∉ o.tasks := by
  have hp := h.projects_nodup
  have ht := h.tasks_nodup
  rw [Multiset.cons_bind, Multiset.nodup_add, Multiset.nodup_add, Multiset.coe_nodup,
    Multiset.disjoint_left, Multiset.disjoint_left] at hp ht
  refine ⟨⟨hp.2.1.1, fun p hpk => ⟨fun hv => ?_, fun o ho hpo => ?_⟩⟩, ht.2.1.1,
    fun t htk => ⟨fun hv => ?_, fun o ho hto => ?_⟩⟩
  · exact hp.2.2 hv (Multiset.mem_add.mpr (Or.inl hpk))
  · exact hp.2.1.2.2 hpk (Multiset.mem_bind.mpr ⟨o, ho, hpo⟩)
  · exact ht.2.2 hv (Multiset.mem_add.mpr (Or.inl htk))
  · exact ht.2.1.2.2 htk (Multiset.mem_bind.mpr ⟨o, ho, hto⟩)

/-- A thread keeps its ids, drops them or draws new ones, while the versions stay. -/
theorem DistinctIds.draw (h : DistinctIds s (k ::ₘ m))
    (hvk : s'.planVersions.keys = s.planVersions.keys) (hvp : s'.versionProjects = s.versionProjects)
    (hpt : s'.plannedTasks = s.plannedTasks) (hlt : s.nextId ≤ s'.nextId) (hkeys : s.projects.keys ⊆ s'.projects.keys)
    (hkeys_lt : ∀ p ∈ s'.projects.keys, p < s'.nextId)
    (hp : k'.projects.Nodup ∧ ∀ p ∈ k'.projects, p ∈ k.projects ∨ s.nextId ≤ p ∧ p < s'.nextId)
    (ht : k'.tasks.Nodup ∧ ∀ t ∈ k'.tasks, t ∈ k.tasks ∨ s.nextId ≤ t ∧ t < s'.nextId) :
    DistinctIds s' (k' ::ₘ m) := by
  have hothers : ∀ o ∈ m, (∀ p ∈ o.projects, p < s.nextId) ∧ ∀ t ∈ o.tasks, t < s.nextId := fun o ho =>
    h.owned_lt o (Multiset.mem_cons_of_mem ho)
  have hown := h.owned_lt k (Multiset.mem_cons_self k m)
  constructor
  · exact hkeys_lt
  · exact fun v hv => (h.version_lt v (hvk ▸ hv)).trans_le hlt
  · exact fun p hpv => hkeys (h.version_project p (hvp ▸ hpv))
  · exact fun t htp => (h.planned_lt t (hpt ▸ htp)).trans_le hlt
  · intro o ho
    rcases Multiset.mem_cons.mp ho with rfl | ho
    · refine ⟨fun p hpo => ?_, fun t hto => ?_⟩
      · rcases hp.2 p hpo with hpk | hnew
        · exact (hown.1 p hpk).trans_le hlt
        · exact hnew.2
      · rcases ht.2 t hto with htk | hnew
        · exact (hown.2 t htk).trans_le hlt
        · exact hnew.2
    · exact ⟨fun p hpo => ((hothers o ho).1 p hpo).trans_le hlt,
        fun t hto => ((hothers o ho).2 t hto).trans_le hlt⟩
  · have hh := h.projects_nodup
    rw [Multiset.cons_bind] at hh ⊢
    rw [hvp]
    refine nodup_redraw hh (fun q hq => h.project_lt q (h.version_project q hq)) (fun q hq => ?_) hp.1
      fun q hq => (hp.2 q hq).imp_right And.left
    obtain ⟨o, ho, hqo⟩ := Multiset.mem_bind.mp hq
    exact (hothers o ho).1 q hqo
  · have hh := h.tasks_nodup
    rw [Multiset.cons_bind] at hh ⊢
    rw [hpt]
    refine nodup_redraw hh h.planned_lt (fun t ht' => ?_) ht.1 fun t ht' => (ht.2 t ht').imp_right And.left
    obtain ⟨o, ho, hto⟩ := Multiset.mem_bind.mp ht'
    exact (hothers o ho).2 t hto

theorem versionProjects_modify (s : Store) (v : UUID) (st : PlanStatus) :
    (s.modifyVersion v ({ · with status := st })).versionProjects = s.versionProjects :=
  OrdDict.map_values_modify _ _ fun _ => rfl

theorem plannedTasks_modify (s : Store) (v : UUID) (st : PlanStatus) :
    (s.modifyVersion v ({ · with status := st })).plannedTasks = s.plannedTasks := by
  have hpay : (s.planVersions.modify v ({ · with status := st })).values.map
      (fun pv => pv.payload.assignments) = s.planVersions.values.map fun pv => pv.payload.assignments :=
    OrdDict.map_values_modify _ _ fun _ => rfl
  simp only [Store.plannedTasks, Store.planAssignments, Store.modifyVersion, List.flatMap_def, hpay]

theorem versionProjects_putVersion {pv : PlanVersionRow} (hnew : s.nextId ∉ s.planVersions.keys) :
    (s.putVersion pv).versionProjects = s.versionProjects ++ [pv.projectId] := by
  simp only [Store.versionProjects, Store.putVersion, OrdDict.values_insert_of_not_mem hnew, List.map_append,
    List.map_cons, List.map_nil]

theorem plannedTasks_putVersion {pv : PlanVersionRow} (hnew : s.nextId ∉ s.planVersions.keys) :
    (s.putVersion pv).plannedTasks = s.plannedTasks ++ pv.payload.assignments.map Assignment.taskId := by
  simp only [Store.plannedTasks, Store.planAssignments, Store.putVersion, OrdDict.values_insert_of_not_mem hnew,
    List.flatMap_append, List.flatMap_cons, List.flatMap_nil, List.append_nil, List.map_append]

/-- The ids that a thread has drawn go to one version. -/
theorem DistinctIds.record (h : DistinctIds s (k ::ₘ m)) {pv : PlanVersionRow} (hproject : pv.projectId ∈ s.projects.keys)
    (hnodup : (pv.payload.assignments.map Assignment.taskId).Nodup) (hp : k.projects = [pv.projectId])
    (htasks : pv.payload.assignments.map Assignment.taskId ⊆ k.tasks) (b : Nat) :
    DistinctIds (s.putVersion pv) (⟨b, .free [] []⟩ ::ₘ m) := by
  have hnew : s.nextId ∉ s.planVersions.keys := fun hk => Nat.lt_irrefl _ (h.version_lt _ hk)
  have hown := h.owned_lt k (Multiset.mem_cons_self _ m)
  have hfree : ((⟨b, .free [] []⟩ : Stage).projects : Multiset UUID) = 0 ∧
      ((⟨b, .free [] []⟩ : Stage).tasks : Multiset UUID) = 0 := ⟨rfl, rfl⟩
  obtain ⟨-, -, hkt⟩ := h.apart
  constructor
  · exact fun q hq => (h.project_lt q hq).trans (Nat.lt_succ_self _)
  · intro v hv
    rcases OrdDict.mem_keys_insert.mp hv with rfl | hv
    · exact Nat.lt_succ_self _
    · exact (h.version_lt v hv).trans (Nat.lt_succ_self _)
  · intro q hq
    rw [versionProjects_putVersion hnew, List.mem_append, List.mem_singleton] at hq
    rcases hq with hq | rfl
    · exact h.version_project q hq
    · exact hproject
  · intro t ht
    rw [plannedTasks_putVersion hnew, List.mem_append] at ht
    rcases ht with ht | ht
    · exact (h.planned_lt t ht).trans (Nat.lt_succ_self _)
    · exact (hown.2 t (htasks ht)).trans (Nat.lt_succ_self _)
  · intro o ho
    rcases Multiset.mem_cons.mp ho with rfl | ho
    · exact ⟨nofun, nofun⟩
    · have hh := h.owned_lt o (Multiset.mem_cons_of_mem ho)
      exact ⟨fun q hq => (hh.1 q hq).trans (Nat.lt_succ_self _), fun t ht => (hh.2 t ht).trans (Nat.lt_succ_self _)⟩
  · have hh := h.projects_nodup
    rw [Multiset.cons_bind, hp] at hh
    rw [Multiset.cons_bind, versionProjects_putVersion hnew, ← Multiset.coe_add, Multiset.add_assoc, hfree.1,
      Multiset.zero_add]
    exact hh
  · have hh := h.tasks_nodup
    rw [Multiset.cons_bind] at hh ⊢
    rw [plannedTasks_putVersion hnew, ← Multiset.coe_add, Multiset.add_assoc, hfree.2, Multiset.zero_add]
    refine nodup_swap hh (Multiset.coe_nodup.mpr hnodup) fun t ht => ⟨(hkt t (htasks ht)).1, ?_⟩
    intro hb
    obtain ⟨o, ho, hto⟩ := Multiset.mem_bind.mp hb
    exact (hkt t (htasks ht)).2 o ho hto

theorem DistinctIds.move (h : DistinctIds s (k ::ₘ m)) (hm : LifecycleMove k s k' s') :
    DistinctIds s' (k' ::ₘ m) := by
  obtain ⟨hkp, hkt⟩ := h.apart
  have hkeep : (k.projects.Nodup ∧ ∀ p ∈ k.projects, p ∈ k.projects ∨ s.nextId ≤ p ∧ p < s'.nextId) ∧
      k.tasks.Nodup ∧ ∀ t ∈ k.tasks, t ∈ k.tasks ∨ s.nextId ≤ t ∧ t < s'.nextId :=
    ⟨⟨hkp.1, fun _ => Or.inl⟩, hkt.1, fun _ => Or.inl⟩
  have hnil : ∀ c : List UUID, ([] : List UUID).Nodup ∧
      ∀ p ∈ ([] : List UUID), p ∈ c ∨ s.nextId ≤ p ∧ p < s'.nextId := fun c => ⟨List.nodup_nil, nofun⟩
  cases hm with
  | rest hq =>
    have hvp : s'.versionProjects = s.versionProjects := by
      simp only [Store.versionProjects, hq.versions]
    have hpt : s'.plannedTasks = s.plannedTasks := by
      simp only [Store.plannedTasks, Store.planAssignments, hq.versions]
    refine h.draw (by rw [hq.versions]) hvp hpt hq.nextId (hq.projects ▸ List.Subset.refl _) ?_ hkeep.1 hkeep.2
    exact fun p hp => (h.project_lt p (hq.projects ▸ hp)).trans_le hq.nextId
  | draw =>
    refine h.draw rfl rfl rfl (Nat.le_add_right _ _) (List.Subset.refl _)
      (fun p hp => (h.project_lt p hp).trans_le (Nat.le_add_right _ _)) ⟨List.nodup_singleton _, ?_⟩
      (hnil _)
    intro p hp
    obtain rfl := List.mem_singleton.mp hp
    exact Or.inr ⟨le_rfl, Nat.lt_succ_self _⟩
  | drawTasks =>
    refine h.draw rfl rfl rfl (Nat.le_add_right _ _) (List.Subset.refl _)
      (fun p hp => (h.project_lt p hp).trans_le (Nat.le_add_right _ _)) ⟨hkp.1, fun _ => Or.inl⟩
      ⟨List.nodup_range', fun t ht => Or.inr (List.mem_range'_1.mp ht)⟩
  | @create b p ts _ row hnew hrow =>
    have hlt : p < s.nextId := (h.owned_lt _ (Multiset.mem_cons_self _ m)).1 p (List.mem_singleton.mpr rfl)
    refine h.draw rfl rfl rfl le_rfl (fun q hq => OrdDict.mem_keys_insert.mpr (Or.inr hq)) (fun q hq => ?_)
      hkeep.1 hkeep.2
    rcases OrdDict.mem_keys_insert.mp hq with rfl | hq
    · exact hlt
    · exact h.project_lt q hq
  | look =>
    exact h.draw rfl rfl rfl le_rfl (List.Subset.refl _) h.project_lt (hnil _) (hnil _)
  | log => exact h.draw rfl rfl rfl le_rfl (List.Subset.refl _) h.project_lt hkeep.1 hkeep.2
  | reflect =>
    refine h.draw rfl rfl rfl le_rfl ?_ (fun p hp => h.project_lt p ?_) (hnil _) (hnil _)
    · rw [Store.modifyProject, OrdDict.keys_modify]
      exact List.Subset.refl _
    · rwa [Store.modifyProject, OrdDict.keys_modify] at hp
  | decide hv hproposed hst =>
    exact h.draw (OrdDict.keys_modify _ _ _) (versionProjects_modify _ _ _) (plannedTasks_modify _ _ _)
      le_rfl (List.Subset.refl _) h.project_lt (hnil _) (hnil _)
  | @record b p ts _ pv hp hproject hstatus hnodup htasks =>
    subst hp
    exact h.record hproject hnodup rfl htasks _

end Ids

theorem DistinctIds.version_inj {s : Store} {m : Multiset Stage} (h : DistinctIds s m) {v w : UUID}
    {pv pw : PlanVersionRow} (hv : s.planVersions.get? v = some pv)
    (hw : s.planVersions.get? w = some pw) (hp : pv.projectId = pw.projectId) : v = w := by
  have hn : (s.planVersions.entries.map fun e => e.2.projectId).Nodup := by
    have hh := (Multiset.nodup_add.mp h.projects_nodup).1
    rw [Multiset.coe_nodup] at hh
    simpa only [Store.versionProjects, OrdDict.values, List.map_map, Function.comp_def] using hh
  have he := List.inj_on_of_nodup_map hn (OrdDict.get?_eq_some_iff.mp hv)
    (OrdDict.get?_eq_some_iff.mp hw) hp
  exact congrArg Prod.fst he

theorem mem_versionProjects {s : Store} {p : UUID} :
    p ∈ s.versionProjects ↔ ∃ v pv, s.planVersions.get? v = some pv ∧ pv.projectId = p := by
  simp only [Store.versionProjects, List.mem_map, OrdDict.mem_values]
  constructor
  · rintro ⟨pv, ⟨v, hv⟩, hp⟩
    exact ⟨v, pv, hv, hp⟩
  · rintro ⟨v, pv, hv, hp⟩
    exact ⟨pv, ⟨v, hv⟩, hp⟩

end Planner
