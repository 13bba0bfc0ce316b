import Planner.ConfirmPlan
import Planner.ProposalTables

/-! What a confirmation leaves in the tables: the version it names is committed,
or nothing changes. -/

namespace Planner

open Program

/-- The version `v` is committed, and only its project and the audit follow. -/
structure Confirmed (v : UUID) (s s' : Store) : Prop where
  planVersions : s'.planVersions = s.planVersions.modify v ({ · with status := .committed })
  projects : s'.projects.keys = s.projects.keys
  people : s'.people = s.people
  templates : s'.templates = s.templates
  tasks : s'.tasks = s.tasks
  assignments : s'.assignments = s.assignments
  dependencies : s'.dependencies = s.dependencies
  dayOverrides : s'.dayOverrides = s.dayOverrides
  nextId : s'.nextId = s.nextId

def Store.IsProposed (s : Store) (v : UUID) : Prop :=
  ∃ pv, s.planVersions.get? v = some pv ∧ pv.status = .proposed

theorem boardCards_run (pv : PlanVersionRecord) (s : Store) :
    ∃ cards, (boardCards pv).run s = (.ok cards, s) := by
  simp only [boardCards, run_bind, Repo.getProject, Repo.getTaskNameMap, Repo.listPeople, run_read]
  exact ⟨_, rfl⟩

theorem mirrorTasks_run (sink : Option TaskSink) (pv : PlanVersionRecord) (s : Store) :
    ∃ counts, (mirrorTasks sink pv).run s = (.ok counts, s) := by
  cases sink with
  | none => exact ⟨_, rfl⟩
  | some sink =>
    simp only [mirrorTasks]
    split
    · exact ⟨_, rfl⟩
    · obtain ⟨cards, hcards⟩ := boardCards_run pv s
      rw [run_bind, run_attempt, hcards]
      exact ⟨_, rfl⟩

theorem confirmPlan_cases {sink : Option TaskSink} {v : UUID} {actor : Option PersonRecord}
    {s s' : Store} {r : Except PlannerError ConfirmResult}
    (h : (confirmPlan sink v actor).run s = (r, s')) :
    (¬ s.IsProposed v ∧ s' = s ∧ ∃ e, r = .error e) ∨
      s.IsProposed v ∧ Confirmed v s s' ∧
        (s.knows (actor.map PersonRecord.id) → ∃ result, r = .ok result) := by
  simp only [confirmPlan, Repo.getPlanVersion, run_bind, run_read] at h
  cases hv : s.planVersions.get? v with
  | none =>
    simp only [hv, Option.map_none, run_raise, Prod.mk.injEq] at h
    refine Or.inl ⟨?_, h.2.symm, _, h.1.symm⟩
    rintro ⟨pv, hpv, -⟩
    cases hv.symm.trans hpv
  | some pv =>
    simp only [hv, Option.map_some, run_bind, Repo.transitionPlanStatus, run_call, Option.any_some,
      decide_eq_true_eq] at h
    by_cases hp : pv.status = .proposed
    · have hmodify : Confirmed v s (s.modifyVersion v ({ · with status := .committed })) :=
        ⟨rfl, rfl, rfl, rfl, rfl, rfl, rfl, rfl, rfl⟩
      refine Or.inr ⟨⟨pv, hv, hp⟩, ?_⟩
      simp only [hp, if_true, run_bind, Repo.addAudit, run_call] at h
      by_cases hk : (s.modifyVersion v ({ · with status := .committed })).knows
          (actor.map PersonRecord.id)
      · simp only [if_pos hk, Repo.setProjectStatus, run_call] at h
        obtain ⟨counts, hcounts⟩ := mirrorTasks_run sink ⟨v, pv.projectId, .proposed, pv.payload⟩
          (((s.modifyVersion v ({ · with status := .committed })).putAudit ⟨actor.map PersonRecord.id,
            "confirm_plan", "plan_version", some v, none⟩).modifyProject pv.projectId
              ({ · with status := .committed }))
        rw [hcounts] at h
        simp only [run_pure, Prod.mk.injEq] at h
        obtain ⟨rfl, rfl⟩ := h
        exact ⟨⟨rfl, OrdDict.keys_modify _ _ _, rfl, rfl, rfl, rfl, rfl, rfl, rfl⟩, fun _ => ⟨_, rfl⟩⟩
      · simp only [if_neg hk, Prod.mk.injEq] at h
        obtain ⟨rfl, rfl⟩ := h
        exact ⟨hmodify, fun hknown => absurd hknown hk⟩
    · simp only [hp, if_false, Bool.false_eq_true, run_bind, run_read, run_raise, Prod.mk.injEq] at h
      refine Or.inl ⟨?_, h.2.symm, _, h.1.symm⟩
      rintro ⟨pw, hpw, hst⟩
      obtain rfl := Option.some.inj (hv.symm.trans hpw)
      exact hp hst

namespace Confirmed

variable {v : UUID} {s s' : Store} {pv : PlanVersionRow}

theorem planAssignments (h : Confirmed v s s') : s'.planAssignments = s.planAssignments := by
  have hpay : (s.planVersions.modify v ({ · with status := .committed })).values.map
      (fun pv => pv.payload.assignments) = s.planVersions.values.map fun pv => pv.payload.assignments :=
    OrdDict.map_values_modify _ _ fun _ => rfl
  simp only [Store.planAssignments, h.planVersions, List.flatMap_def, hpay]

theorem wf (h : Confirmed v s s') (hs : s.WF) : s'.WF := by
  have hproject : s'.planVersions.values.map PlanVersionRow.projectId =
      s.planVersions.values.map PlanVersionRow.projectId := by
    rw [h.planVersions]
    exact OrdDict.map_values_modify _ _ fun _ => rfl
  constructor
  · rw [h.projects, h.nextId]
    exact hs.project_lt
  · rw [h.tasks, h.nextId]
    exact hs.task_lt
  · rw [h.planVersions, OrdDict.keys_modify, h.nextId]
    exact hs.version_lt
  · rw [h.tasks, h.projects]
    exact hs.task_project
  · rw [h.assignments, h.tasks, h.people]
    exact hs.assignment_keys
  · rw [h.dayOverrides, h.people]
    exact hs.override_person
  · rw [h.dependencies, h.tasks]
    exact hs.dependency_tasks
  · intro pw hpw
    have hm : pw.projectId ∈ s.planVersions.values.map PlanVersionRow.projectId :=
      hproject ▸ List.mem_map_of_mem hpw
    obtain ⟨po, hpo, he⟩ := List.mem_map.mp hm
    rw [h.projects, ← he]
    exact hs.version_project po hpo
  · rw [hproject]
    exact hs.one_version
  · rw [h.planAssignments, h.tasks]
    exact hs.planned_task
  · rw [h.planAssignments]
    exact hs.planned_once

theorem committedPayloads (h : Confirmed v s s') (hv : s.planVersions.get? v = some pv)
    (hp : pv.status = .proposed) : s'.committedPayloads.Perm (pv.payload :: s.committedPayloads) := by
  obtain ⟨pre, post, he, hm⟩ := OrdDict.modify_split hv
  have hs : s.committedPayloads = ((pre.map Prod.snd ++ pv :: post.map Prod.snd).filter
      fun pw => pw.status = .committed).map PlanVersionRow.payload := by
    simp only [Store.committedPayloads, OrdDict.values, he, List.map_append, List.map_cons]
  have hs' : s'.committedPayloads = ((pre.map Prod.snd ++ { pv with status := .committed } ::
      post.map Prod.snd).filter fun pw => pw.status = .committed).map PlanVersionRow.payload := by
    simp only [Store.committedPayloads, OrdDict.values, h.planVersions, hm, List.map_append, List.map_cons]
  rw [hs, hs']
  simp only [List.filter_append, List.filter_cons, hp, reduceCtorEq, decide_false, decide_true, if_true,
    if_false, Bool.false_eq_true, List.map_append, List.map_cons]
  exact List.perm_middle

end Confirmed

end Planner
