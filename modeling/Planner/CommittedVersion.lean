import Mathlib.Data.List.Pairwise
import Planner.ProposalTables

/-! The committed version that holds a task. A task is planned in one place, so
the first such version is the only one, and an edit reaches just this payload. -/

namespace Planner

namespace Payload

theorem mentions_iff {p : Payload} {taskId : UUID} :
    p.mentions taskId = true ↔ ∃ a ∈ p.assignments, a.taskId = taskId := by
  simp [mentions]

theorem editTask_of_not_mentions {p : Payload} {taskId : UUID} (f : Assignment → Assignment)
    (h : ¬ p.mentions taskId = true) : p.editTask taskId f = p := by
  have hid : p.assignments.map (fun a => if a.taskId = taskId then f a else a) = p.assignments := by
    refine (List.map_congr_left fun a ha => ?_).trans (List.map_id _)
    exact if_neg fun he => h (mentions_iff.mpr ⟨a, ha, he⟩)
  simp only [editTask, hid]

theorem map_taskId_editTask {p : Payload} {taskId : UUID} {f : Assignment → Assignment}
    (hf : ∀ a, (f a).taskId = a.taskId) :
    (p.editTask taskId f).assignments.map Assignment.taskId = p.assignments.map Assignment.taskId := by
  simp only [editTask, List.map_map]
  refine List.map_congr_left fun a _ => ?_
  simp only [Function.comp_apply]
  split
  · exact hf a
  · rfl

end Payload

namespace Store

variable {s : Store}

theorem map_taskId_planAssignments (s : Store) : s.planAssignments.map Assignment.taskId =
    s.planVersions.values.flatMap fun pv => pv.payload.assignments.map Assignment.taskId := by
  rw [planAssignments, List.map_flatMap]

theorem mem_planAssignments {a : Assignment} :
    a ∈ s.planAssignments ↔
      ∃ v pv, s.planVersions.get? v = some pv ∧ a ∈ pv.payload.assignments := by
  simp only [planAssignments, List.mem_flatMap, OrdDict.mem_values]
  constructor
  · rintro ⟨pv, ⟨v, hv⟩, ha⟩
    exact ⟨v, pv, hv, ha⟩
  · rintro ⟨v, pv, hv, ha⟩
    exact ⟨pv, ⟨v, hv⟩, ha⟩

theorem mem_committedPayloads {payload : Payload} :
    payload ∈ s.committedPayloads ↔
      ∃ v pv, s.planVersions.get? v = some pv ∧ pv.status = .committed ∧ pv.payload = payload := by
  simp only [committedPayloads, List.mem_map, List.mem_filter, OrdDict.mem_values, decide_eq_true_eq]
  constructor
  · rintro ⟨pv, ⟨⟨v, hv⟩, hc⟩, rfl⟩
    exact ⟨v, pv, hv, hc, rfl⟩
  · rintro ⟨v, pv, hv, hc, rfl⟩
    exact ⟨pv, ⟨⟨v, hv⟩, hc⟩, rfl⟩

/-- Rewrites the task in the first committed version that holds it, if any. -/
def editInPlan (s : Store) (taskId : UUID) (f : Assignment → Assignment) : Store :=
  match s.committedVersionOf taskId with
  | none => s
  | some v => s.modifyVersion v fun pv => { pv with payload := pv.payload.editTask taskId f }

section Frame

variable (taskId : UUID) (f : Assignment → Assignment)

@[simp] theorem people_editInPlan : (s.editInPlan taskId f).people = s.people := by
  unfold editInPlan; split <;> rfl

@[simp] theorem projects_editInPlan : (s.editInPlan taskId f).projects = s.projects := by
  unfold editInPlan; split <;> rfl

@[simp] theorem tasks_editInPlan : (s.editInPlan taskId f).tasks = s.tasks := by
  unfold editInPlan; split <;> rfl

@[simp] theorem assignments_editInPlan : (s.editInPlan taskId f).assignments = s.assignments := by
  unfold editInPlan; split <;> rfl

@[simp] theorem dependencies_editInPlan : (s.editInPlan taskId f).dependencies = s.dependencies := by
  unfold editInPlan; split <;> rfl

@[simp] theorem dayOverrides_editInPlan : (s.editInPlan taskId f).dayOverrides = s.dayOverrides := by
  unfold editInPlan; split <;> rfl

@[simp] theorem nextId_editInPlan : (s.editInPlan taskId f).nextId = s.nextId := by
  unfold editInPlan; split <;> rfl

@[simp] theorem audit_editInPlan : (s.editInPlan taskId f).audit = s.audit := by
  unfold editInPlan; split <;> rfl

@[simp] theorem keys_editInPlan : (s.editInPlan taskId f).planVersions.keys = s.planVersions.keys := by
  unfold editInPlan
  split
  · rfl
  · exact OrdDict.keys_modify _ _ _

theorem map_projectId_editInPlan :
    (s.editInPlan taskId f).planVersions.values.map PlanVersionRow.projectId =
      s.planVersions.values.map PlanVersionRow.projectId := by
  unfold editInPlan
  split
  · rfl
  · exact OrdDict.map_values_modify _ _ fun _ => rfl

theorem map_taskId_editInPlan (hf : ∀ a, (f a).taskId = a.taskId) :
    (s.editInPlan taskId f).planAssignments.map Assignment.taskId =
      s.planAssignments.map Assignment.taskId := by
  have hmap : (s.editInPlan taskId f).planVersions.values.map
      (fun pv => pv.payload.assignments.map Assignment.taskId) =
      s.planVersions.values.map fun pv => pv.payload.assignments.map Assignment.taskId := by
    unfold editInPlan
    split
    · rfl
    · exact OrdDict.map_values_modify _ _ fun _ => Payload.map_taskId_editTask hf
  simp only [map_taskId_planAssignments, List.flatMap_def, hmap]

end Frame

namespace WF

theorem editInPlan (hs : s.WF) (taskId : UUID) {f : Assignment → Assignment}
    (hf : ∀ a, (f a).taskId = a.taskId) : (s.editInPlan taskId f).WF := by
  have htasks := map_taskId_editInPlan (s := s) taskId f hf
  have hprojects := map_projectId_editInPlan (s := s) taskId f
  constructor
  · simpa using hs.project_lt
  · simpa using hs.task_lt
  · simpa using hs.version_lt
  · simpa using hs.task_project
  · simpa using hs.assignment_keys
  · simpa using hs.override_person
  · simpa using hs.dependency_tasks
  · intro pv hpv
    have hm := List.mem_map_of_mem (f := PlanVersionRow.projectId) hpv
    rw [hprojects] at hm
    obtain ⟨pw, hpw, he⟩ := List.mem_map.mp hm
    rw [projects_editInPlan, ← he]
    exact hs.version_project pw hpw
  · rw [hprojects]
    exact hs.one_version
  · intro a ha
    have hm := List.mem_map_of_mem (f := Assignment.taskId) ha
    rw [htasks] at hm
    obtain ⟨b, hb, he⟩ := List.mem_map.mp hm
    rw [tasks_editInPlan, ← he]
    exact hs.planned_task b hb
  · rw [htasks]
    exact hs.planned_once

theorem task_of_version (hs : s.WF) {v : UUID} {pv : PlanVersionRow}
    (hv : s.planVersions.get? v = some pv) {a : Assignment} (ha : a ∈ pv.payload.assignments) :
    a.taskId ∈ s.tasks.keys := hs.planned_task a (mem_planAssignments.mpr ⟨v, pv, hv, ha⟩)

theorem task_of_payload (hs : s.WF) {payload : Payload} (hp : payload ∈ s.committedPayloads)
    {a : Assignment} (ha : a ∈ payload.assignments) : a.taskId ∈ s.tasks.keys := by
  obtain ⟨v, pv, hv, -, rfl⟩ := mem_committedPayloads.mp hp
  exact hs.task_of_version hv ha

theorem version_of_task (hs : s.WF) {v w : UUID} {pv pw : PlanVersionRow} {a b : Assignment}
    (hv : s.planVersions.get? v = some pv) (ha : a ∈ pv.payload.assignments)
    (hw : s.planVersions.get? w = some pw) (hb : b ∈ pw.payload.assignments)
    (hab : a.taskId = b.taskId) : v = w := by
  have hnodup := hs.planned_once
  rw [map_taskId_planAssignments, OrdDict.values, List.flatMap_map, List.nodup_flatMap] at hnodup
  have : Std.Symm (Function.onFun List.Disjoint fun e : UUID × PlanVersionRow =>
      e.2.payload.assignments.map Assignment.taskId) := ⟨fun _ _ h => h.symm⟩
  by_contra hne
  have hdisjoint := hnodup.2.forall (OrdDict.get?_eq_some_iff.mp hv) (OrdDict.get?_eq_some_iff.mp hw)
    fun he => hne (congrArg Prod.fst he)
  exact hdisjoint (List.mem_map_of_mem ha) (hab ▸ List.mem_map_of_mem hb)

theorem committedVersionOf_spec {taskId v : UUID} (h : s.committedVersionOf taskId = some v) :
    ∃ pv, s.planVersions.get? v = some pv ∧ pv.status = .committed ∧
      pv.payload.mentions taskId = true := by
  obtain ⟨e, hfind, rfl⟩ := Option.map_eq_some_iff.mp h
  have he := List.find?_some hfind
  simp only [decide_eq_true_eq] at he
  exact ⟨e.2, OrdDict.get?_eq_some_iff.mpr (List.mem_of_find?_eq_some hfind), he⟩

theorem committedVersionOf_eq (hs : s.WF) {v : UUID} {pv : PlanVersionRow} {a : Assignment}
    (hv : s.planVersions.get? v = some pv) (hc : pv.status = .committed)
    (ha : a ∈ pv.payload.assignments) : s.committedVersionOf a.taskId = some v := by
  have hm : pv.payload.mentions a.taskId = true := Payload.mentions_iff.mpr ⟨a, ha, rfl⟩
  cases hw : s.committedVersionOf a.taskId with
  | none =>
    rw [committedVersionOf, Option.map_eq_none_iff, List.find?_eq_none] at hw
    exact absurd (decide_eq_true ⟨hc, hm⟩) (hw _ (OrdDict.get?_eq_some_iff.mp hv))
  | some w =>
    obtain ⟨pw, hpw, -, hmw⟩ := committedVersionOf_spec hw
    obtain ⟨b, hb, hba⟩ := Payload.mentions_iff.mp hmw
    rw [hs.version_of_task hpw hb hv ha hba]

theorem get?_editInPlan (hs : s.WF) {v : UUID} {pv : PlanVersionRow}
    (hv : s.planVersions.get? v = some pv) (taskId : UUID) (f : Assignment → Assignment) :
    (s.editInPlan taskId f).planVersions.get? v =
      some (if pv.status = .committed then { pv with payload := pv.payload.editTask taskId f }
        else pv) := by
  have hother : s.committedVersionOf taskId ≠ some v → pv.status = .committed →
      pv.payload.editTask taskId f = pv.payload := by
    refine fun hne hc => Payload.editTask_of_not_mentions f fun hm => ?_
    obtain ⟨a, ha, rfl⟩ := Payload.mentions_iff.mp hm
    exact hne (hs.committedVersionOf_eq hv hc ha)
  cases hw : s.committedVersionOf taskId with
  | none =>
    simp only [Store.editInPlan, hw, hv]
    split
    · rename_i hc
      rw [hother (by simp [hw]) hc]
    · rfl
  | some w =>
    simp only [Store.editInPlan, hw, modifyVersion]
    by_cases hvw : v = w
    · subst hvw
      obtain ⟨pw, hpw, hc, -⟩ := committedVersionOf_spec hw
      obtain rfl := Option.some.inj (hv.symm.trans hpw)
      rw [OrdDict.get?_modify_self, hv, if_pos hc]
      rfl
    · rw [OrdDict.get?_modify_of_ne _ _ hvw, hv]
      split
      · rename_i hc
        rw [hother (fun he => hvw (Option.some.inj (he.symm.trans hw))) hc]
      · rfl

end WF

end Store

end Planner
