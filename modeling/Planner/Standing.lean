import Planner.Aside
import Planner.ConfirmFaults
import Planner.LifecycleThreads

/-! What a proposal and a decision do to the standing of plan versions and to the
status of their projects, and everything else to neither. -/

namespace Planner

open Program

/-- Ids have been drawn, and every version has a project of its own. -/
structure Store.VersionIds (s : Store) : Prop where
  lt : ∀ v ∈ s.planVersions.keys, v < s.nextId
  project : ∀ v p st, s.standing v = some (p, st) → p ∈ s.projects.keys
  distinct : ∀ v w p st st', s.standing v = some (p, st) → s.standing w = some (p, st') → v = w

/-- The versions of `s'` that `s` does not have. -/
def Store.newVersions (s s' : Store) : List UUID :=
  s'.planVersions.keys.filter fun v => decide (v ∉ s.planVersions.keys)

/-- The version `v` of project `p` has been decided, and the project shows it. -/
structure Decided (v p : UUID) (st : PlanStatus) (s s' : Store) : Prop where
  versions : s'.planVersions.keys = s.planVersions.keys
  standing : s'.standing v = some (p, st)
  standing_of_ne : ∀ w ≠ v, s'.standing w = s.standing w
  projects : s'.projects.keys = s.projects.keys
  status : s'.projectStatus p = some st.project
  status_of_ne : ∀ q ≠ p, s'.projectStatus q = s.projectStatus q
  people : s'.people = s.people
  nextId : s'.nextId = s.nextId

/-- The version `v` has been proposed for a new project `p`. -/
structure Added (v p : UUID) (s s' : Store) : Prop where
  versions : s'.planVersions.keys = s.planVersions.keys ++ [v]
  new : v ∉ s.planVersions.keys
  standing : s'.standing v = some (p, .proposed)
  standing_of_ne : ∀ w ≠ v, s'.standing w = s.standing w
  project_new : p ∉ s.projects.keys
  project : p ∈ s'.projects.keys
  projects : ∀ q ∈ s.projects.keys, q ∈ s'.projects.keys ∧ s'.projectStatus q = s.projectStatus q
  people : s'.people = s.people
  nextId : s.nextId ≤ s'.nextId
  lt : v < s'.nextId

theorem Store.standing_eq_some {s : Store} {v p : UUID} {st : PlanStatus} :
    s.standing v = some (p, st) ↔ ∃ pv, s.planVersions.get? v = some pv ∧ pv.projectId = p ∧ pv.status = st := by
  simp only [Store.standing, Option.map_eq_some_iff, Prod.mk.injEq]

theorem Store.isProposed_iff {s : Store} {v : UUID} : s.IsProposed v ↔ ∃ p, s.standing v = some (p, .proposed) := by
  constructor
  · rintro ⟨pv, hv, hst⟩
    exact ⟨pv.projectId, Store.standing_eq_some.mpr ⟨pv, hv, rfl, hst⟩⟩
  · rintro ⟨p, h⟩
    obtain ⟨pv, hv, -, hst⟩ := Store.standing_eq_some.mp h
    exact ⟨pv, hv, hst⟩

theorem Store.mem_versions_of_standing {s : Store} {v p : UUID} {st : PlanStatus}
    (h : s.standing v = some (p, st)) : v ∈ s.planVersions.keys := by
  obtain ⟨pv, hv, -⟩ := Store.standing_eq_some.mp h
  exact OrdDict.mem_keys.mpr (by rw [hv]; rfl)

theorem Store.WF.versionIds {s : Store} (h : s.WF) : s.VersionIds where
  lt := h.version_lt
  project v p st hv := by
    obtain ⟨pv, hget, rfl, -⟩ := Store.standing_eq_some.mp hv
    exact h.version_project pv (OrdDict.mem_values.mpr ⟨v, hget⟩)
  distinct v w p st st' hv hw := by
    obtain ⟨pv, hpv, rfl, -⟩ := Store.standing_eq_some.mp hv
    obtain ⟨pw, hpw, hp, -⟩ := Store.standing_eq_some.mp hw
    have hnodup : (s.planVersions.entries.map fun e => e.2.projectId).Nodup := by
      have hone := h.one_version
      rwa [OrdDict.values, List.map_map] at hone
    have hinj := List.inj_on_of_nodup_map hnodup (OrdDict.get?_eq_some_iff.mp hpv)
      (OrdDict.get?_eq_some_iff.mp hpw) hp.symm
    exact congrArg Prod.fst hinj

namespace Store.VersionIds

variable {s s' : Store} {v p : UUID} {st : PlanStatus}

theorem aside (h : s.VersionIds) (ha : Aside s s') : s'.VersionIds where
  lt w hw := (h.lt w (ha.versions ▸ hw)).trans_le ha.nextId
  project w q st hw := (ha.projects q (h.project w q st (ha.standing w ▸ hw))).1
  distinct w w' q st st' hw hw' := h.distinct w w' q st st' (ha.standing w ▸ hw) (ha.standing w' ▸ hw')

theorem decided (h : s.VersionIds) {st₀ : PlanStatus} (hv : s.standing v = some (p, st₀))
    (hd : Decided v p st s s') : s'.VersionIds := by
  have hstanding : ∀ w q st', s'.standing w = some (q, st') → ∃ st₁, s.standing w = some (q, st₁) := by
    intro w q st' hw
    by_cases hwv : w = v
    · subst hwv
      rw [hd.standing] at hw
      obtain ⟨rfl, -⟩ := Prod.mk.inj (Option.some.inj hw)
      exact ⟨st₀, hv⟩
    · exact ⟨st', hd.standing_of_ne w hwv ▸ hw⟩
  refine ⟨fun w hw => ?_, fun w q st' hw => ?_, fun w w' q st' st'' hw hw' => ?_⟩
  · rw [hd.nextId]
    exact h.lt w (hd.versions ▸ hw)
  · obtain ⟨st₁, hold⟩ := hstanding w q st' hw
    rw [hd.projects]
    exact h.project w q st₁ hold
  · obtain ⟨st₁, hold⟩ := hstanding w q st' hw
    obtain ⟨st₂, hold'⟩ := hstanding w' q st'' hw'
    exact h.distinct w w' q st₁ st₂ hold hold'

theorem added (h : s.VersionIds) (ha : Added v p s s') : s'.VersionIds := by
  have hstanding : ∀ w q st', s'.standing w = some (q, st') → (w = v ∧ q = p) ∨ w ≠ v ∧ s.standing w = some (q, st') := by
    intro w q st' hw
    by_cases hwv : w = v
    · subst hwv
      rw [ha.standing] at hw
      obtain ⟨rfl, -⟩ := Prod.mk.inj (Option.some.inj hw)
      exact Or.inl ⟨rfl, rfl⟩
    · exact Or.inr ⟨hwv, ha.standing_of_ne w hwv ▸ hw⟩
  refine ⟨fun w hw => ?_, fun w q st' hw => ?_, fun w w' q st' st'' hw hw' => ?_⟩
  · rw [ha.versions, List.mem_append, List.mem_singleton] at hw
    rcases hw with hw | rfl
    · exact (h.lt w hw).trans_le ha.nextId
    · exact ha.lt
  · rcases hstanding w q st' hw with ⟨-, rfl⟩ | ⟨-, hold⟩
    · exact ha.project
    · exact (ha.projects q (h.project w q st' hold)).1
  · rcases hstanding w q st' hw with ⟨rfl, rfl⟩ | ⟨-, hold⟩
    · rcases hstanding w' q st'' hw' with ⟨rfl, -⟩ | ⟨-, hold'⟩
      · rfl
      · exact absurd (h.project w' q st'' hold') ha.project_new
    · rcases hstanding w' q st'' hw' with ⟨rfl, rfl⟩ | ⟨-, hold'⟩
      · exact absurd (h.project w q st' hold) ha.project_new
      · exact h.distinct w w' q st' st'' hold hold'

end Store.VersionIds

section Decisions

variable {s : Store} {v p : UUID}

theorem decided_of_eq {st st₀ : PlanStatus} (hids : s.VersionIds) (hv : s.standing v = some (p, st₀)) {s' : Store}
    (hversions : s'.planVersions = s.planVersions.modify v ({ · with status := st }))
    (hprojects : s'.projects = s.projects.modify p ({ · with status := st.project })) (hpeople : s'.people = s.people)
    (hnext : s'.nextId = s.nextId) : Decided v p st s s' := by
  obtain ⟨pv, hget, rfl, -⟩ := Store.standing_eq_some.mp hv
  have hproject := hids.project _ _ _ hv
  obtain ⟨row, hrow⟩ := Option.isSome_iff_exists.mp (OrdDict.mem_keys.mp hproject)
  refine ⟨?_, ?_, fun w hw => ?_, ?_, ?_, fun q hq => ?_, hpeople, hnext⟩
  · rw [hversions, OrdDict.keys_modify]
  · rw [Store.standing, hversions, OrdDict.get?_modify_self, hget]
    rfl
  · rw [Store.standing, hversions, OrdDict.get?_modify_of_ne _ _ hw, Store.standing]
  · rw [hprojects, OrdDict.keys_modify]
  · rw [Store.projectStatus, hprojects, OrdDict.get?_modify_self, hrow]
    rfl
  · rw [Store.projectStatus, hprojects, OrdDict.get?_modify_of_ne _ _ hq, Store.projectStatus]

theorem confirmPlan_run_of_not_proposed (sink : Option TaskSink) (actor : Option PersonRecord)
    (h : ¬ s.IsProposed v) : ∃ e, e.Decided ∧ (confirmPlan sink v actor).run s = (.error e, s) := by
  simp only [confirmPlan, Repo.getPlanVersion, run_bind, run_read]
  cases hv : s.planVersions.get? v with
  | none => exact ⟨.planNotFound v, trivial, rfl⟩
  | some pv =>
    have hp : pv.status ≠ .proposed := fun hp => h ⟨pv, hv, hp⟩
    simp only [Option.map_some, run_bind, Repo.transitionPlanStatus, run_call, hv, Option.any_some,
      decide_eq_true_eq, if_neg hp, Bool.false_eq_true, if_false, run_read, run_raise]
    exact ⟨.planNotProposed (some pv.status), trivial, rfl⟩

theorem confirmPlan_run_of_proposed (sink : Option TaskSink) (hids : s.VersionIds) {actor : Option PersonRecord}
    (hknown : s.knows (actor.map PersonRecord.id)) (h : s.standing v = some (p, .proposed)) :
    ∃ result s', (confirmPlan sink v actor).run s = (.ok result, s') ∧ Decided v p .committed s s' := by
  obtain ⟨pv, hv, rfl, hst⟩ := Store.standing_eq_some.mp h
  rcases confirmPlan_cases (Prod.mk.eta (p := (confirmPlan sink v actor).run s)).symm with
    ⟨hnot, -, -⟩ | ⟨-, -, hok⟩
  · exact absurd ⟨pv, hv, hst⟩ hnot
  obtain ⟨result, hr⟩ := hok hknown
  rcases confirmPlan_ends (@Ends.run _ _ _ (fun _ => False) (confirmPlan sink v actor) s) with
    ⟨-, e, he⟩ | ⟨pw, hw, -, ⟨-, e, he⟩ | ⟨-, e, he⟩ | ⟨hs, -⟩⟩
  · cases hr.symm.trans he
  · cases hr.symm.trans he
  · cases hr.symm.trans he
  · obtain rfl := Option.some.inj (hv.symm.trans hw)
    refine ⟨result, _, Prod.ext hr hs, decided_of_eq hids h rfl rfl rfl rfl⟩

theorem confirmAnswer_store (already : String) (p : UseCase ConfirmResult) (s : Store) :
    ((confirmAnswer already p).run s).2 = (p.run s).2 := by
  simp only [confirmAnswer, run_bind, run_attempt]
  split <;> rfl

theorem confirmAnswer_of_not_proposed (sink : Option TaskSink) (actor : Option PersonRecord) (h : ¬ s.IsProposed v)
    (already : String) : (confirmAnswer already (confirmPlan sink v actor)).run s = (.ok (already, false), s) := by
  obtain ⟨e, he, hrun⟩ := confirmPlan_run_of_not_proposed sink actor h
  simp only [confirmAnswer, run_bind, run_attempt, hrun]
  cases e <;> first | rfl | exact he.elim

/-- The chat answers either way. -/
theorem confirmAnswer_run (sink : Option TaskSink) (v : UUID) (hids : s.VersionIds) {actor : Option PersonRecord}
    (hknown : s.knows (actor.map PersonRecord.id)) (already : String) :
    (¬ s.IsProposed v ∧ (confirmAnswer already (confirmPlan sink v actor)).run s = (.ok (already, false), s)) ∨
      ∃ p text s', s.standing v = some (p, .proposed) ∧ Decided v p .committed s s' ∧
        (confirmAnswer already (confirmPlan sink v actor)).run s = (.ok (text, true), s') := by
  by_cases h : s.IsProposed v
  · obtain ⟨p, hp⟩ := Store.isProposed_iff.mp h
    obtain ⟨result, s', hrun, hd⟩ := confirmPlan_run_of_proposed sink hids hknown hp
    refine Or.inr ⟨p, confirmReplyText result, s', hp, hd, ?_⟩
    simp only [confirmAnswer, run_bind, run_attempt, hrun, run_pure]
  · exact Or.inl ⟨h, confirmAnswer_of_not_proposed sink actor h already⟩

theorem retirePlan_run (hids : s.VersionIds) (h : s.standing v = some (p, .proposed)) :
    ∃ s', (retirePlan v).run s = (.ok (), s') ∧ Decided v p .superseded s s' := by
  obtain ⟨pv, hv, rfl, hst⟩ := Store.standing_eq_some.mp h
  refine ⟨(s.modifyVersion v ({ · with status := .superseded })).modifyProject pv.projectId
    ({ · with status := .cancelled }), ?_, decided_of_eq hids h rfl rfl rfl rfl⟩
  simp only [retirePlan, Repo.getPlanVersion, Repo.transitionPlanStatus, Repo.setProjectStatus, run_bind, run_read,
    run_call, hv, Option.map_some, Option.any_some, hst, decide_true, if_true]

theorem retirePlan_run_of_not_proposed (h : ¬ s.IsProposed v) : (retirePlan v).run s = (.ok (), s) := by
  simp only [retirePlan, Repo.getPlanVersion, Repo.transitionPlanStatus, Repo.setProjectStatus, run_bind, run_read,
    run_call]
  cases hv : s.planVersions.get? v with
  | none => rfl
  | some pv =>
    have hp : pv.status ≠ .proposed := fun hp => h ⟨pv, hv, hp⟩
    simp only [Option.map_some, Option.any_some, decide_eq_true_eq, if_neg hp, Bool.false_eq_true, if_false,
      run_pure]

end Decisions

theorem Proposed.added {solver : GreedySolver} {intent : AddProjectIntent} {actor : Option PersonRecord}
    {people : List Person} {template : ProjectTemplate} {today : Date} {existing : List DayAllocation}
    {overrides : List DayOverride} {s s' : Store} {result : AddProjectResult}
    (h : Proposed solver intent actor people template today existing overrides s result s') (hids : s.VersionIds) :
    Added result.planVersionId result.project.id s s' := by
  have hnew : result.planVersionId ∉ s.planVersions.keys := fun hk => by
    have hlt := hids.lt _ hk
    have hid := h.version_id
    lia
  have hproject : result.project.id ∉ s.projects.keys := h.project_id ▸ h.recordable.project_new
  obtain ⟨row, hrow, hprojects⟩ := h.projects
  refine ⟨?_, hnew, ?_, fun w hw => ?_, hproject, ?_, fun q hq => ⟨?_, ?_⟩, h.people_eq, ?_, ?_⟩
  · rw [h.planVersions, OrdDict.keys_insert_of_not_mem hnew]
  · rw [Store.standing, h.planVersions, OrdDict.get?_insert_self]
    rfl
  · rw [Store.standing, h.planVersions, OrdDict.get?_insert_of_ne _ _ hw, Store.standing]
  · rw [hprojects]
    exact OrdDict.mem_keys_insert.mpr (Or.inl rfl)
  · rw [hprojects]
    exact OrdDict.mem_keys_insert.mpr (Or.inr hq)
  · have hne : q ≠ result.project.id := fun he => hproject (he ▸ hq)
    rw [Store.projectStatus, hprojects, OrdDict.get?_insert_of_ne _ _ hne, Store.projectStatus]
  · have hid := h.version_id
    have hnext := h.nextId
    lia
  · have hnext := h.nextId
    lia

end Planner
