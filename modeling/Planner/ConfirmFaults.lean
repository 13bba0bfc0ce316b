import Planner.Bookings
import Planner.Lib.Faults

/-! A confirmation that fails halfway. The version, the audit log and the project
change one after the other, each in a transaction of its own, and what was
written before a failure stays. -/

namespace Planner

open Program

namespace Store

/-- The first write of a confirmation. -/
def moved (s : Store) (v : UUID) : Store := s.modifyVersion v ({ · with status := .committed })

/-- The first two. -/
def movedAudited (s : Store) (v : UUID) (actorId : Option UUID) : Store :=
  (s.moved v).putAudit ⟨actorId, "confirm_plan", "plan_version", some v, none⟩

/-- All three. -/
def confirmed (s : Store) (v : UUID) (actorId : Option UUID) (projectId : UUID) : Store :=
  (s.movedAudited v actorId).modifyProject projectId ({ · with status := .committed })

end Store

section Writes

variable {s : Store} {v : UUID} {row : PlanVersionRow} {actorId : Option UUID}

theorem getPlanVersion_run (hv : s.planVersions.get? v = some row) :
    (Repo.getPlanVersion v).run s = (.ok (some ⟨v, row.projectId, row.status, row.payload⟩), s) := by
  simp only [Repo.getPlanVersion, run_read, hv, Option.map_some]

theorem transition_run (hv : s.planVersions.get? v = some row) (hproposed : row.status = .proposed) :
    (Repo.transitionPlanStatus v .proposed .committed).run s = (.ok true, s.moved v) := by
  simp only [Repo.transitionPlanStatus, run_call, hv, Option.any_some, hproposed, decide_true, if_true]
  rfl

theorem confirmAudit_run (hknown : s.knows actorId) :
    (Repo.addAudit actorId "confirm_plan" "plan_version" (some v) none).run (s.moved v) =
      (.ok (), s.movedAudited v actorId) := by
  have hknows : (s.moved v).knows actorId := hknown
  simp only [Repo.addAudit, run_call, if_pos hknows]
  rfl

theorem confirmProject_run (s : Store) (v : UUID) (actorId : Option UUID) (projectId : UUID) :
    (Repo.setProjectStatus projectId .committed).run (s.movedAudited v actorId) =
      (.ok (), s.confirmed v actorId projectId) := by
  simp only [Repo.setProjectStatus, run_call]
  rfl

end Writes

section Ends

variable {fault : PlannerError → Prop} {sink : Option TaskSink} {v : UUID} {actor : Option PersonRecord}
  {s s' : Store}

/-- Whatever fails in the mirror, it answers and writes nothing. -/
theorem mirrorTasks_ends {pv : PlanVersionRecord} {r : Except PlannerError (Nat × Nat)}
    (h : (mirrorTasks sink pv).Ends fault s r s') : s' = s ∧ ∃ counts, r = .ok counts := by
  cases sink with
  | none =>
    obtain ⟨rfl, rfl⟩ := Ends.of_pure h
    exact ⟨rfl, _, rfl⟩
  | some sink =>
    simp only [mirrorTasks] at h
    split at h
    · obtain ⟨rfl, rfl⟩ := Ends.of_pure h
      exact ⟨rfl, _, rfl⟩
    · have hkeeps : (boardCards pv).Keeps (· = s) :=
        (Keeps.read _).bind fun _ => (Keeps.read _).bind fun _ => (Keeps.read _).bind fun _ => Keeps.pure _
      rcases Ends.of_bind h with ⟨cards, s₁, h₁, hrest⟩ | ⟨e, h₁, -⟩
      · obtain rfl := hkeeps.attempt.ends rfl h₁
        cases cards with
        | ok cards =>
          obtain ⟨rfl, rfl⟩ := Ends.of_pure hrest
          exact ⟨rfl, _, rfl⟩
        | error e =>
          obtain ⟨rfl, rfl⟩ := Ends.of_pure hrest
          exact ⟨rfl, _, rfl⟩
      · obtain ⟨_, -, hx⟩ := Ends.of_attempt h₁
        cases hx

/-- What follows once the version has moved. -/
theorem confirmWrites_ends {actorId : Option UUID} {pv : PlanVersionRecord} {f : Nat × Nat → ConfirmResult}
    {r : Except PlannerError ConfirmResult}
    (h : (Repo.addAudit actorId "confirm_plan" "plan_version" (some v) none >>= fun _ =>
      Repo.setProjectStatus pv.projectId .committed >>= fun _ =>
        mirrorTasks sink pv >>= fun counts => Pure.pure (f counts)).Ends fault (s.moved v) r s') :
    (s' = s.moved v ∧ ∃ e, r = .error e) ∨ (s' = s.movedAudited v actorId ∧ ∃ e, r = .error e) ∨
      s' = s.confirmed v actorId pv.projectId ∧ ∃ result, r = .ok result := by
  rcases Ends.of_bind h with ⟨_, s₁, h₁, h⟩ | ⟨e, h₁, rfl⟩
  swap
  · exact Or.inl ⟨(Ends.of_guarded_error h₁).1, e, rfl⟩
  obtain ⟨-, rfl⟩ := Ends.of_guarded_ok h₁
  refine Or.inr ?_
  rcases Ends.of_bind h with ⟨_, s₂, h₂, h⟩ | ⟨e, h₂, rfl⟩
  · obtain ⟨-, rfl⟩ := Ends.of_call_ok h₂
    refine Or.inr ?_
    rcases Ends.of_bind h with ⟨counts, s₃, h₃, h⟩ | ⟨e, h₃, -⟩
    · obtain ⟨rfl, -⟩ := mirrorTasks_ends h₃
      obtain ⟨rfl, rfl⟩ := Ends.of_pure h
      exact ⟨rfl, _, rfl⟩
    · obtain ⟨-, _, hx⟩ := mirrorTasks_ends h₃
      cases hx
  · refine Or.inl ⟨?_, e, rfl⟩
    rcases Ends.of_call h₂ with ⟨hr, -⟩ | ⟨hs, -⟩
    · cases hr
    · exact hs

theorem confirmPlan_ends {r : Except PlannerError ConfirmResult}
    (h : (confirmPlan sink v actor).Ends fault s r s') :
    (s' = s ∧ ∃ e, r = .error e) ∨ ∃ pv, s.planVersions.get? v = some pv ∧ pv.status = .proposed ∧
      ((s' = s.moved v ∧ ∃ e, r = .error e) ∨
        (s' = s.movedAudited v (actor.map PersonRecord.id) ∧ ∃ e, r = .error e) ∨
        s' = s.confirmed v (actor.map PersonRecord.id) pv.projectId ∧ ∃ result, r = .ok result) := by
  rcases Ends.of_bind h with ⟨found, s₁, h₁, h⟩ | ⟨e, h₁, rfl⟩
  swap
  · exact Or.inl ⟨(Ends.of_read h₁).1, _, rfl⟩
  obtain ⟨rfl, rfl⟩ := Ends.of_read_ok h₁
  cases hv : s₁.planVersions.get? v with
  | none =>
    simp only [hv, Option.map_none] at h
    obtain ⟨rfl, rfl⟩ := Ends.of_raise h
    exact Or.inl ⟨rfl, _, rfl⟩
  | some pv =>
    simp only [hv, Option.map_some] at h
    rcases Ends.of_bind h with ⟨moved, s₂, h₂, h⟩ | ⟨e, h₂, rfl⟩
    swap
    · rcases Ends.of_call h₂ with ⟨hr, -⟩ | ⟨rfl, -⟩
      · split at hr <;> cases hr
      · exact Or.inl ⟨rfl, _, rfl⟩
    obtain ⟨hr, rfl⟩ := Ends.of_call_ok h₂
    by_cases hp : pv.status = .proposed
    · have hany : (s₁.planVersions.get? v).any (fun pv => pv.status = .proposed) = true := by simp [hv, hp]
      rw [if_pos hany] at hr h
      obtain rfl := Except.ok.inj hr
      rw [if_pos rfl] at h
      refine Or.inr ⟨pv, rfl, hp, ?_⟩
      exact @confirmWrites_ends fault sink v s₁ s' _ ⟨v, pv.projectId, pv.status, pv.payload⟩
        (fun counts => ⟨⟨v, pv.projectId, .committed, pv.payload⟩, counts.2, counts.1⟩) r h
    · have hany : ¬ (s₁.planVersions.get? v).any (fun pv => pv.status = .proposed) = true := by simp [hv, hp]
      rw [if_neg hany] at hr h
      obtain rfl := Except.ok.inj hr
      simp only [Bool.false_eq_true, if_false] at h
      rcases Ends.of_bind h with ⟨current, s₃, h₃, hraise⟩ | ⟨e, h₃, rfl⟩
      · obtain ⟨-, rfl⟩ := Ends.of_read_ok h₃
        obtain ⟨rfl, rfl⟩ := Ends.of_raise hraise
        exact Or.inl ⟨rfl, _, rfl⟩
      · exact Or.inl ⟨(Ends.of_read h₃).1, _, rfl⟩

end Ends

/-- Version, project and audit log as they were, or all three confirmed. -/
def Store.ConfirmationAtomic (s s' : Store) (v : UUID) : Prop :=
  (s'.planVersions.get? v = s.planVersions.get? v ∧ s'.projects = s.projects ∧ s'.audit = s.audit) ∨
    ∃ pv entry, s.planVersions.get? v = some pv ∧
      s'.planVersions.get? v = some { pv with status := .committed } ∧
      (s'.projects.get? pv.projectId).map ProjectRow.status = some .committed ∧ s'.audit = s.audit ++ [entry]

/-- A confirmation that moved the version is not repeated. -/
theorem not_proposed_of_moved {s s' : Store} {v : UUID} {pv : PlanVersionRow} (hv : s.planVersions.get? v = some pv)
    (h : s'.planVersions = (s.moved v).planVersions) : ¬ s'.IsProposed v := by
  rintro ⟨pw, hpw, hst⟩
  rw [h, Store.moved, Store.modifyVersion, OrdDict.get?_modify_self, hv] at hpw
  obtain rfl := Option.some.inj hpw
  cases hst

/-- Whatever fails, the tables hold the first of the three writes: none of them,
the version, the version and the audit entry, or all three. Only then it
answers; and from the first write on, a retry changes nothing and is refused. -/
theorem confirmation_prefix (fault : PlannerError → Prop) (sink : Option TaskSink) (v : UUID)
    (actor : Option PersonRecord) (s s' : Store) (r : Except PlannerError ConfirmResult)
    (h : (confirmPlan sink v actor).Ends fault s r s') :
    (s' = s ∧ ∃ e, r = .error e) ∨ ∃ pv, s.planVersions.get? v = some pv ∧ pv.status = .proposed ∧
      ((s' = s.moved v ∧ ∃ e, r = .error e) ∨
        (s' = s.movedAudited v (actor.map PersonRecord.id) ∧ ∃ e, r = .error e) ∨
        s' = s.confirmed v (actor.map PersonRecord.id) pv.projectId ∧ ∃ result, r = .ok result) ∧
      ∀ fault' sink' actor' r' s'', (confirmPlan sink' v actor').Ends fault' s' r' s'' →
        s'' = s' ∧ ∃ e, r' = .error e := by
  rcases confirmPlan_ends h with hnone | ⟨pv, hv, hp, hwrites⟩
  · exact Or.inl hnone
  · refine Or.inr ⟨pv, hv, hp, hwrites, fun fault' sink' actor' r' s'' hretry => ?_⟩
    have hversions : s'.planVersions = (s.moved v).planVersions := by
      rcases hwrites with ⟨rfl, -⟩ | ⟨rfl, -⟩ | ⟨rfl, -⟩ <;> rfl
    rcases confirmPlan_ends hretry with hsame | ⟨pw, hpw, hst, -⟩
    · exact hsame
    · exact absurd ⟨pw, hpw, hst⟩ (not_proposed_of_moved hv hversions)

/-- The proposal of a day of shooting, under version 6. -/
def proposedShooting : Store :=
  ((addProject .onWeekdays { title := "Ролик", templateCode := "lite" } none anna shooting 1 [] [] none).run
    shootingStore).2

/-- The database does not answer when the audit entry is written. -/
theorem proposedShooting_ends : (confirmPlan none 6 none).Ends (· = .unavailable) proposedShooting
    (.error .unavailable) (proposedShooting.moved 6) :=
  .operate (.operate (.fail rfl (.raise _ _)))

theorem confirmation_prefix_shooting :
    (proposedShooting.moved 6 = proposedShooting ∧
      ∃ e, (Except.error .unavailable : Except PlannerError ConfirmResult) = .error e) ∨
    ∃ pv, proposedShooting.planVersions.get? 6 = some pv ∧ pv.status = .proposed ∧
      ((proposedShooting.moved 6 = proposedShooting.moved 6 ∧
          ∃ e, (Except.error .unavailable : Except PlannerError ConfirmResult) = .error e) ∨
        (proposedShooting.moved 6 = proposedShooting.movedAudited 6 none ∧
          ∃ e, (Except.error .unavailable : Except PlannerError ConfirmResult) = .error e) ∨
        proposedShooting.moved 6 = proposedShooting.confirmed 6 none pv.projectId ∧
          ∃ result, (Except.error .unavailable : Except PlannerError ConfirmResult) = .ok result) ∧
      ∀ fault' sink' actor' r' s'', (confirmPlan sink' 6 actor').Ends fault' (proposedShooting.moved 6) r' s'' →
        s'' = proposedShooting.moved 6 ∧ ∃ e, r' = .error e :=
  confirmation_prefix _ none 6 none _ _ _ proposedShooting_ends

/-- The version is committed, without an entry in the log, and the project stays in planning. -/
theorem confirmation_half_done : ∃ r s', (confirmPlan none 6 none).Ends (· = .unavailable) proposedShooting r s' ∧
    ¬ proposedShooting.ConfirmationAtomic s' 6 ∧ ((confirmPlan none 6 none).run s').2 = s' := by
  refine ⟨_, _, proposedShooting_ends, ?_, rfl⟩
  have hold : (proposedShooting.planVersions.get? 6).map PlanVersionRow.status = some .proposed := rfl
  have hnew : ((proposedShooting.moved 6).planVersions.get? 6).map PlanVersionRow.status = some .committed := rfl
  rintro (⟨hsame, -⟩ | ⟨pv, entry, -, -, -, haudit⟩)
  · rw [hsame, hold] at hnew
    cases hnew
  · have hlog : (proposedShooting.moved 6).audit = proposedShooting.audit := rfl
    rw [hlog, List.self_eq_append_right] at haudit
    cases haudit

end Planner
