import Planner.CompletePlan

/-! What a what-if changes: the tasks that move, and the overloads that come and
go with them. -/

namespace Planner

structure PlanDiff where
  movedTasks : List UUID := []
  newOverloads : List RiskFlag := []
  removedOverloads : List RiskFlag := []
  deriving DecidableEq, Repr

def PlanResult.byTask (p : PlanResult) : OrdDict UUID Assignment :=
  OrdDict.ofList (p.assignments.map fun a => (a.taskId, a))

def overloadKeys (plan : PlanResult) : List (Option UUID × Option Date) :=
  plan.overloads.map fun r => (r.personId, r.day)

/-- Moved tasks and the change of the overloads; only dates count as a move. -/
def diff (base modified : PlanResult) : PlanDiff where
  movedTasks := (modified.assignments.filter fun a =>
    match base.byTask.get? a.taskId with
    | none => true
    | some b => decide (b.startDate ≠ a.startDate ∨ b.endDate ≠ a.endDate)).map Assignment.taskId
  newOverloads := modified.overloads.filter fun r => decide ((r.personId, r.day) ∉ overloadKeys base)
  removedOverloads := base.overloads.filter fun r => decide ((r.personId, r.day) ∉ overloadKeys modified)

section Diff

variable {base modified : PlanResult} {tid : UUID} {r : RiskFlag}

theorem mem_movedTasks : tid ∈ (diff base modified).movedTasks ↔ ∃ a ∈ modified.assignments, a.taskId = tid ∧
    ∀ b, base.byTask.get? tid = some b → b.startDate ≠ a.startDate ∨ b.endDate ≠ a.endDate := by
  simp only [diff, List.mem_map, List.mem_filter]
  constructor
  · rintro ⟨a, ⟨ha, hmoved⟩, rfl⟩
    refine ⟨a, ha, rfl, fun b hb => ?_⟩
    rw [hb] at hmoved
    exact of_decide_eq_true hmoved
  · rintro ⟨a, ha, rfl, hmoved⟩
    refine ⟨a, ⟨ha, ?_⟩, rfl⟩
    cases hb : base.byTask.get? a.taskId with
    | none => rfl
    | some b => exact decide_eq_true (hmoved b hb)

theorem mem_newOverloads : r ∈ (diff base modified).newOverloads ↔
    r ∈ modified.overloads ∧ (r.personId, r.day) ∉ overloadKeys base := by
  rw [diff, List.mem_filter, decide_eq_true_eq]

theorem mem_removedOverloads : r ∈ (diff base modified).removedOverloads ↔
    r ∈ base.overloads ∧ (r.personId, r.day) ∉ overloadKeys modified := by
  rw [diff, List.mem_filter, decide_eq_true_eq]

theorem byTask_get? (hnodup : (base.assignments.map Assignment.taskId).Nodup) {a : Assignment}
    (ha : a ∈ base.assignments) : base.byTask.get? a.taskId = some a := by
  refine OrdDict.get?_ofList_of_mem ?_ (List.mem_map.mpr ⟨a, ha, rfl⟩)
  rw [List.map_map]
  exact hnodup

end Diff

end Planner
