import Planner.ActRuns
import Planner.Bookings

/-! Recorded hours and reserved hours. A proposal records what it reserves; a
reassignment records eight hours, whatever the task takes. -/

namespace Planner

/-- The hours recorded for a task of a committed plan are those reserved for it. -/
def Store.HoursAgree (s : Store) : Prop :=
  ∀ payload ∈ s.committedPayloads, ∀ a ∈ payload.assignments, a.allocations ≠ [] →
    ∀ p, s.assignments.getD (a.taskId, p) 0 = a.hoursOf p

/-- A committed task that is reassigned takes eight hours. A plan that is
confirmed gives the last assignee of a task eight hours, and no one else any. -/
structure Act.KeepsHours (s₀ : Store) (pre : List Act) (act : Act) : Prop where
  committed : ∀ payload ∈ (s₀.after pre).committedPayloads, ∀ a ∈ payload.assignments,
    a.allocations ≠ [] → act.assignee? a.taskId (s₀.after pre) ≠ none → a.hours = 8
  confirmed : ∀ v pv, (s₀.after pre).planVersions.get? v = some pv → pv.status = .proposed →
    act.confirms v = true → ∀ a ∈ pv.payload.assignments, a.allocations ≠ [] →
    ∀ p, s₀.lastAssignee a.taskId pre = some p → ∀ q, a.hoursOf q = if q = p then 8 else 0

theorem Assignment.hoursOf_edited (a : Assignment) (q : UUID) (start end_ : Option Date) (p : UUID) :
    (a.edited (some q) start end_).hoursOf p = if p = q then a.hours else 0 := by
  by_cases hp : p = q
  · subst hp
    simp [hoursOf, hours, edited, List.filter_map, Function.comp_def]
  · have hp' : ¬ q = p := fun he => hp he.symm
    simp [hoursOf, edited, List.filter_map, Function.comp_def, hp, hp']

theorem Assignment.hoursOf_edited_none (a : Assignment) (start end_ : Option Date) (p : UUID) :
    (a.edited none start end_).hoursOf p = a.hoursOf p := by
  simp [hoursOf, edited]

/-- The rows of a proposed task are those of its payload until it is reassigned. -/
structure RowsFollow (s₀ : Store) (pre : List Act) : Prop where
  wf : (s₀.after pre).WF
  known : ∀ t p, s₀.lastAssignee t pre = some p → t ∈ (s₀.after pre).tasks.keys
  proposed : ∀ v pv, (s₀.after pre).planVersions.get? v = some pv → pv.status = .proposed →
    ∀ a ∈ pv.payload.assignments, ∃ t, ∀ p, (s₀.after pre).assignments.get? (a.taskId, p) =
      rowAfter (s₀.lastAssignee a.taskId pre) p ((hoursByPerson t a).get? p)

theorem RowsFollow.snoc {s₀ : Store} {pre : List Act} (h : RowsFollow s₀ pre) (act : Act) :
    RowsFollow s₀ (pre ++ [act]) := by
  have hlast := fun t => s₀.lastAssignee_snoc t pre act
  refine ⟨?_, fun t p hp => ?_, fun v pv hv hst a ha => ?_⟩
  · rw [Store.after_snoc]
    exact act.perform_wf h.wf
  · rw [Store.after_snoc]
    refine act.perform_tasks ?_
    rw [hlast] at hp
    rcases Option.or_eq_some_iff.mp hp with hp | ⟨-, hp⟩
    · exact (Act.assignee?_known hp).1
    · exact h.known t p hp
  · rw [Store.after_snoc] at hv ⊢
    cases hold : (s₀.after pre).planVersions.get? v with
    | none =>
      obtain ⟨_, _, _, _, _, _, _, _, _, hprop, -, -, hpay⟩ := act.perform_new_version hold hv
      rw [hpay] at ha
      obtain ⟨t, hrows⟩ := hprop.rows h.wf ha
      obtain ⟨u, hu, hua⟩ := List.mem_map.mp (hprop.plan_tasks.2 a ha)
      have hnew : a.taskId ∉ (s₀.after pre).tasks.keys := hua ▸ hprop.recordable.tasks_new u hu
      have hnever : s₀.lastAssignee a.taskId (pre ++ [act]) = none := by
        rw [hlast, Option.or_eq_none_iff]
        exact ⟨Option.eq_none_iff_forall_ne_some.mpr fun p hp => hnew (Act.assignee?_known hp).1,
          Option.eq_none_iff_forall_ne_some.mpr fun p hp => hnew (h.known _ p hp)⟩
      exact ⟨t, fun p => by rw [hrows, hnever, rowAfter]⟩
    | some old =>
      rw [act.perform_version h.wf hold] at hv
      obtain rfl := Option.some.inj hv
      have hst' : old.status = .proposed := by
        dsimp only at hst
        split at hst
        · cases hst
        · exact hst
      simp only [hst', reduceCtorEq, if_false] at ha
      obtain ⟨t, hrows⟩ := h.proposed v old hold hst' a ha
      refine ⟨t, fun p => ?_⟩
      rw [act.perform_row (h.wf.task_of_version hold ha), hrows, hlast, rowAfter_or]

theorem RowsFollow.getD_proposed {s₀ : Store} {pre : List Act} (h : RowsFollow s₀ pre) {v : UUID}
    {pv : PlanVersionRow} (hv : (s₀.after pre).planVersions.get? v = some pv)
    (hst : pv.status = .proposed) {a : Assignment} (ha : a ∈ pv.payload.assignments)
    (hne : a.allocations ≠ []) (p : UUID) :
    (s₀.after pre).assignments.getD (a.taskId, p) 0 = match s₀.lastAssignee a.taskId pre with
      | none => a.hoursOf p
      | some q => if p = q then 8 else 0 := by
  obtain ⟨t, hrows⟩ := h.proposed v pv hv hst a ha
  rw [OrdDict.getD, hrows]
  cases s₀.lastAssignee a.taskId pre with
  | none => exact getD_hoursByPerson t hne p
  | some q => by_cases hpq : p = q <;> simp [rowAfter, hpq]

/-- One request keeps the recorded hours true iff it meets the condition. -/
theorem perform_hoursAgree_iff {s₀ : Store} {pre : List Act} (h : RowsFollow s₀ pre)
    (hagree : (s₀.after pre).HoursAgree) (act : Act) :
    (act.perform (s₀.after pre)).HoursAgree ↔ act.KeepsHours s₀ pre := by
  have hrow : ∀ {a : Assignment}, a.taskId ∈ (s₀.after pre).tasks.keys → ∀ p,
      (act.perform (s₀.after pre)).assignments.getD (a.taskId, p) 0 =
        (rowAfter (act.assignee? a.taskId (s₀.after pre)) p
          ((s₀.after pre).assignments.get? (a.taskId, p))).getD 0 := fun ht p => by
    rw [OrdDict.getD, act.perform_row ht]
  constructor
  · intro hnext
    refine ⟨fun payload hp a ha hne hq => ?_, fun v pv hv hst hc a ha hne p hlast q => ?_⟩
    · obtain ⟨q, hq⟩ := Option.ne_none_iff_exists'.mp hq
      have hp' := (act.mem_perform_committedPayloads h.wf).mpr (Or.inl ⟨payload, hp, rfl⟩)
      have hb := hnext _ hp' _ (List.mem_map_of_mem ha) (by simpa [Assignment.edited] using hne) q
      rw [hq, Assignment.hoursOf_edited, if_pos rfl] at hb
      rw [← hb]
      refine (hrow (h.wf.task_of_payload hp ha) q).trans ?_
      simp [hq, rowAfter]
    · have hp' := (act.mem_perform_committedPayloads h.wf).mpr (Or.inr ⟨v, pv, hv, hst, hc, rfl⟩)
      rw [← hnext _ hp' a ha hne q, hrow (h.wf.task_of_version hv ha), Act.assignee?_of_confirms hc]
      exact (h.getD_proposed hv hst ha hne q).trans (by rw [hlast])
  · intro hkeep payload hp b hb hne p
    rcases (act.mem_perform_committedPayloads h.wf).mp hp with
      ⟨old, hold, rfl⟩ | ⟨v, pv, hv, hst, hc, rfl⟩
    · obtain ⟨a, ha, rfl⟩ := List.mem_map.mp hb
      have hne' : a.allocations ≠ [] := by simpa [Assignment.edited] using hne
      refine (hrow (h.wf.task_of_payload hold ha) p).trans ?_
      cases hq : act.assignee? a.taskId (s₀.after pre) with
      | none =>
        rw [Assignment.hoursOf_edited_none]
        exact hagree old hold a ha hne' p
      | some q =>
        rw [Assignment.hoursOf_edited, hkeep.committed old hold a ha hne' (by simp [hq])]
        by_cases hpq : p = q <;> simp [rowAfter, hpq]
    · rw [hrow (h.wf.task_of_version hv hb), Act.assignee?_of_confirms hc]
      refine (h.getD_proposed hv hst hb hne p).trans ?_
      cases hlast : s₀.lastAssignee b.taskId pre with
      | none => rfl
      | some q => exact (hkeep.confirmed v pv hv hst hc b hb hne q hlast p).symm

/-- All along a run the recorded hours are the reserved ones iff every request
of it meets the condition. -/
theorem hours_agree_iff (s₀ : Store) (hs : s₀.WF) (hempty : s₀.planVersions = .empty)
    (acts : List Act) : (∀ pre, pre <+: acts → (s₀.after pre).HoursAgree) ↔
      ∀ pre act, pre ++ [act] <+: acts → act.KeepsHours s₀ pre := by
  refine Trace.always_iff (I := RowsFollow s₀) ?_ ?_ (fun pre act h => h.snoc act)
    fun pre act h hagree => ?_
  · refine ⟨hs, fun t p hp => ?_, fun v pv hv => ?_⟩
    · cases hp
    · rw [Store.after, Trace.after_nil, hempty] at hv
      cases hv
  · intro payload hp
    rw [Store.after, Trace.after_nil, Store.committedPayloads, hempty] at hp
    cases hp
  · rw [Store.after_snoc]
    exact perform_hoursAgree_iff h hagree act

/-- Two days of one person are proposed and confirmed, and given to the same person again. -/
def longShooting : ProjectTemplate := ⟨"long", [{
  ord := 1, name := "Съёмка", durationHours := 16, allowedPersonIds := [1], isSplittable := true }]⟩

def longStore : Store where
  people := OrdDict.empty.insert 1 { name := "Анна" }
  templates := OrdDict.empty.insert 2 "long"
  templateTasks := OrdDict.empty.insert 3
    { templateId := 2, ord := 1, name := "Съёмка", durationHours := 16, isSplittable := true }
  templateTaskAssignees := OrdDict.empty.insert (3, 1) { strictness := .A }
  nextId := 4

def reassignLong : List Act :=
  [.addProject .onWeekdays { title := "Ролик", templateCode := "long" } none anna longShooting 1 [] []
      none, .confirm none 6 none, .reassign true (.value 5) (.value 1) none]

theorem hours_agree_iff_reassignLong :
    (∀ pre, pre <+: reassignLong → (longStore.after pre).HoursAgree) ↔
      ∀ pre act, pre ++ [act] <+: reassignLong → act.KeepsHours longStore pre :=
  hours_agree_iff longStore (by constructor <;> decide) rfl reassignLong

theorem reassignLong_not_agree :
    longStore.projectTemplate "long" = some longShooting ∧
      ¬ ∀ pre, pre <+: reassignLong → (longStore.after pre).HoursAgree := by
  refine ⟨rfl, fun h => ?_⟩
  have hpayload : (longStore.after reassignLong).committedPayloads =
      [⟨[⟨5, 1, 1, 2, [⟨1, 1, 8⟩, ⟨1, 2, 8⟩]⟩], [], some 2⟩] := rfl
  have hrows : (longStore.after reassignLong).assignments.getD (5, 1) 0 = 8 := rfl
  have hh := h reassignLong List.prefix_rfl _ (hpayload ▸ List.mem_cons_self) _ List.mem_cons_self
    (List.cons_ne_nil _ _) 1
  exact absurd (hrows.symm.trans hh) (by decide)

end Planner
