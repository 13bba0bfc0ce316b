import Planner.TaskRows

/-! Runs of requests: a version follows the edits made after its confirmation,
the rows of a task the last reassignment. -/

namespace Planner

theorem Assignment.edited_edited (a : Assignment) (p q : Option UUID) (s t e f : Option Date) :
    (a.edited p s e).edited q t f = a.edited (q.or p) (t.or s) (f.or e) := by
  cases p <;> cases q <;> cases s <;> cases t <;> cases e <;> cases f <;>
    simp [edited, Function.comp_def]

theorem rowAfter_or (q r : Option UUID) (p : UUID) (hours : Option Int) :
    rowAfter (q.or r) p hours = rowAfter q p (rowAfter r p hours) := by
  cases q <;> rfl

namespace Store

/-- The person of the last successful reassignment of a task. -/
def lastAssignee (s : Store) (taskId : UUID) (acts : List Act) : Option UUID :=
  Trace.last Act.perform (Act.assignee? taskId) s acts

/-- The last start a successful date edit gave a task. -/
def lastStart (s : Store) (taskId : UUID) (acts : List Act) : Option Date :=
  Trace.last Act.perform (Act.start? taskId) s acts

def lastEnd (s : Store) (taskId : UUID) (acts : List Act) : Option Date :=
  Trace.last Act.perform (Act.end? taskId) s acts

theorem lastAssignee_snoc (s : Store) (taskId : UUID) (acts : List Act) (act : Act) :
    s.lastAssignee taskId (acts ++ [act]) =
      (act.assignee? taskId (s.after acts)).or (s.lastAssignee taskId acts) :=
  Trace.last_snoc _ _ _ _ _

theorem after_append_cons (s : Store) (acts later : List Act) (act : Act) :
    s.after (acts ++ act :: later) = (s.after (acts ++ [act])).after later := by
  rw [List.append_cons]
  exact Trace.after_append _ _ _ _

section Confirm

variable (s : Store) (taskId : UUID) (acts later : List Act) (sink : Option TaskSink) (v : UUID)
  (actor : Option PersonRecord)

theorem lastAssignee_confirm : s.lastAssignee taskId (acts ++ .confirm sink v actor :: later) =
    ((s.after (acts ++ [.confirm sink v actor])).lastAssignee taskId later).or
      (s.lastAssignee taskId acts) := Trace.last_append_cons _ rfl

theorem lastStart_confirm : s.lastStart taskId (acts ++ .confirm sink v actor :: later) =
    ((s.after (acts ++ [.confirm sink v actor])).lastStart taskId later).or
      (s.lastStart taskId acts) := Trace.last_append_cons _ rfl

theorem lastEnd_confirm : s.lastEnd taskId (acts ++ .confirm sink v actor :: later) =
    ((s.after (acts ++ [.confirm sink v actor])).lastEnd taskId later).or
      (s.lastEnd taskId acts) := Trace.last_append_cons _ rfl

end Confirm

theorem WF.after {s : Store} (hs : s.WF) (acts : List Act) : (s.after acts).WF :=
  Trace.after_keeps _ (fun _ act h => act.perform_wf h) hs acts

theorem mem_tasks_after {s : Store} {t : UUID} (ht : t ∈ s.tasks.keys) (acts : List Act) :
    t ∈ (s.after acts).tasks.keys :=
  Trace.after_keeps (I := fun s : Store => t ∈ s.tasks.keys) _ (fun _ act h => act.perform_tasks h) ht acts

theorem row_after {s : Store} {t : UUID} (ht : t ∈ s.tasks.keys) (p : UUID) (acts : List Act) :
    (s.after acts).assignments.get? (t, p) =
      rowAfter (s.lastAssignee t acts) p (s.assignments.get? (t, p)) := by
  induction acts using List.reverseRecOn with
  | nil => rfl
  | append_singleton acts act ih =>
    rw [after_snoc, act.perform_row (mem_tasks_after ht acts), ih, lastAssignee_snoc, rowAfter_or]

/-- A proposal that nothing confirms stays as it is. -/
theorem version_after_proposed {s : Store} (hs : s.WF) {v : UUID} {pv : PlanVersionRow}
    (hv : s.planVersions.get? v = some pv) (hp : pv.status = .proposed) {acts : List Act}
    (hacts : ∀ act ∈ acts, act.confirms v = false) : (s.after acts).planVersions.get? v = some pv := by
  induction acts using List.reverseRecOn with
  | nil => exact hv
  | append_singleton acts act ih =>
    have hbefore := ih fun a ha => hacts a (List.mem_append_left _ ha)
    rw [after_snoc, act.perform_version (hs.after acts) hbefore]
    have hact := hacts act (by simp)
    have hne : pv.status ≠ .committed := hp ▸ nofun
    simp only [hact, Bool.false_eq_true, and_false, if_false, hne]

/-- A committed version carries every edit since. -/
theorem version_after_committed {s : Store} (hs : s.WF) {v : UUID} {pv : PlanVersionRow}
    (hv : s.planVersions.get? v = some pv) (hc : pv.status = .committed) (acts : List Act) :
    (s.after acts).planVersions.get? v = some { pv with payload := { pv.payload with
      assignments := pv.payload.assignments.map fun a => a.edited (s.lastAssignee a.taskId acts)
        (s.lastStart a.taskId acts) (s.lastEnd a.taskId acts) } } := by
  induction acts using List.reverseRecOn with
  | nil =>
    simp only [lastAssignee, lastStart, lastEnd, Trace.last, Assignment.edited_none, List.map_id']
    exact hv
  | append_singleton acts act ih =>
    rw [after_snoc, act.perform_version (hs.after acts) ih]
    simp only [hc, reduceCtorEq, false_and, if_false, if_true, Payload.edited, List.map_map,
      Option.some.injEq, PlanVersionRow.mk.injEq, Payload.mk.injEq, and_true, true_and]
    refine List.map_congr_left fun a _ => ?_
    simp only [Function.comp_apply, Assignment.edited_edited, lastAssignee, lastStart, lastEnd,
      Trace.last_snoc]
    rfl

end Store

end Planner
