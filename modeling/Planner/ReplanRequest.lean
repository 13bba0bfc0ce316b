import Mathlib.Data.List.Flatten
import Planner.ActRuns
import Planner.PlainPlan

/-! The request a replan solves in a store that requests have built: committed
work only, each task a plain one-day task of the person it is committed to. -/

namespace Planner

/-- No dependency row concerns a planned task. -/
def Store.Unlinked (s : Store) : Prop :=
  ∀ k ∈ s.dependencies.keys, ∀ a ∈ s.planAssignments, k.1 ≠ a.taskId

/-- What every run keeps. -/
structure Store.Grown (s : Store) : Prop where
  wf : s.WF
  unlinked : s.Unlinked

theorem Act.mem_perform_planAssignments {s : Store} (act : Act) (hs : s.WF) {b : Assignment}
    (hb : b ∈ (act.perform s).planAssignments) :
    (∃ a ∈ s.planAssignments, a.taskId = b.taskId) ∨ b.taskId ∉ s.tasks.keys := by
  obtain ⟨v, pv, hv, hb⟩ := Store.mem_planAssignments.mp hb
  cases hold : s.planVersions.get? v with
  | none =>
    obtain ⟨_, _, _, _, _, _, _, _, result, hprop, -, -, hpay⟩ := act.perform_new_version hold hv
    rw [hpay] at hb
    obtain ⟨t, ht, htb⟩ := List.mem_map.mp (hprop.plan_tasks.2 b hb)
    exact Or.inr (htb ▸ hprop.recordable.tasks_new t ht)
  | some old =>
    rw [act.perform_version hs hold] at hv
    obtain rfl := Option.some.inj hv
    dsimp only at hb
    split at hb
    · obtain ⟨a, ha, rfl⟩ := List.mem_map.mp hb
      exact Or.inl ⟨a, Store.mem_planAssignments.mpr ⟨v, old, hold, ha⟩, rfl⟩
    · exact Or.inl ⟨b, Store.mem_planAssignments.mpr ⟨v, old, hold, hb⟩, rfl⟩

theorem Store.Grown.perform {s : Store} (h : s.Grown) (act : Act) : (act.perform s).Grown := by
  refine ⟨act.perform_wf h.wf, fun k hk b hb he => ?_⟩
  rw [act.perform_dependencies] at hk
  rcases act.mem_perform_planAssignments h.wf hb with ⟨a, ha, hab⟩ | hnew
  · exact h.unlinked k hk a ha (he.trans hab.symm)
  · exact hnew (he ▸ (h.wf.dependency_tasks k hk).1)

theorem Store.grown_after {s₀ : Store} (hs : s₀.WF) (hempty : s₀.planVersions = .empty)
    (acts : List Act) : (s₀.after acts).Grown := by
  refine Trace.after_keeps _ (fun s act h => h.perform act) ⟨hs, fun k _ a ha => ?_⟩ acts
  simp [planAssignments, hempty] at ha

namespace Store

/-- The assignments of all committed plans. -/
def committedAssignments (s : Store) : List Assignment := s.committedPayloads.flatMap Payload.assignments

/-- Those a replan solves again. -/
def rebuiltAssignments (s : Store) : List Assignment := s.committedAssignments.filter fun a => a.hours ≠ 0

/-- The task of a rebuilt assignment. -/
def rebuiltTask (s : Store) (a : Assignment) : Task where
  id := a.taskId
  name := s.taskNames.getD a.taskId "task"
  durationHours := a.hours
  allowedPersonIds := [a.personId]

variable {s : Store}

theorem rebuiltTasks_eq (s : Store) : s.rebuiltTasks = s.rebuiltAssignments.map s.rebuiltTask := by
  have key : ∀ l : List Assignment, l.filterMap (Assignment.rebuild s.taskNames) =
      (l.filter fun a => a.hours ≠ 0).map s.rebuiltTask := by
    intro l
    induction l with
    | nil => rfl
    | cons a l ih => by_cases h : a.hours = 0 <;> simp [Assignment.rebuild, h, ih, rebuiltTask]
  exact key s.committedAssignments

theorem committedAssignments_sublist (s : Store) : s.committedAssignments.Sublist s.planAssignments := by
  rw [committedAssignments, committedPayloads, List.flatMap_map]
  exact List.filter_sublist.flatMap _

theorem nodup_committedAssignments (hs : s.WF) :
    (s.committedAssignments.map Assignment.taskId).Nodup :=
  hs.planned_once.sublist (s.committedAssignments_sublist.map _)

/-- A task is committed in one place. -/
theorem WF.committed_inj (hs : s.WF) {a b : Assignment} (ha : a ∈ s.committedAssignments)
    (hb : b ∈ s.committedAssignments) (h : a.taskId = b.taskId) : a = b :=
  List.inj_on_of_nodup_map (nodup_committedAssignments hs) ha hb h

variable {today : Date} {req : PlanRequest}

theorem replanRequest_some (h : s.replanRequest today = some req) :
    s.solverPeople ≠ [] ∧ req = {
      people := s.solverPeople
      tasks := s.rebuiltAssignments.map s.rebuiltTask
      dependencies := s.dependencyList.filter fun d =>
        d.taskId ∈ s.rebuiltTasks.map Task.id ∧ d.dependsOnId ∈ s.rebuiltTasks.map Task.id
      horizonStart := today
      dayOverrides := s.overrideList } := by
  unfold replanRequest at h
  split at h
  · cases h
  · rename_i hn
    exact ⟨fun hp => hn (Or.inl hp), rebuiltTasks_eq s ▸ (Option.some.inj h).symm⟩

/-- The rebuilt request has no dependencies, and only plain tasks. -/
theorem Grown.replan_plain (hs : s.Grown) (h : s.replanRequest today = some req) : req.Plain := by
  obtain ⟨hpool, rfl⟩ := replanRequest_some h
  have hids : ((s.rebuiltAssignments.map s.rebuiltTask).map Task.id).Nodup := by
    rw [List.map_map]
    exact (nodup_committedAssignments hs.wf).sublist (List.filter_sublist.map _)
  refine ⟨hids, ?_, rfl, hpool, fun t ht => ?_⟩
  · refine List.filter_eq_nil_iff.mpr fun d hd hw => ?_
    obtain ⟨k, hk, rfl⟩ := List.mem_map.mp hd
    have htask := (of_decide_eq_true hw).1
    rw [rebuiltTasks_eq, List.map_map] at htask
    obtain ⟨a, ha, he⟩ := List.mem_map.mp htask
    exact hs.unlinked k.1 (List.mem_map_of_mem hk) a
      (s.committedAssignments_sublist.subset (List.mem_of_mem_filter ha)) he.symm
  · obtain ⟨a, -, rfl⟩ := List.mem_map.mp ht
    exact ⟨rfl, rfl, rfl, nofun⟩

end Store

end Planner
