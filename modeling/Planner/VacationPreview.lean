import Planner.CleanReplan
import Planner.VacationDays
import Planner.WhatIf

/-! A vacation and the replans before and after it. What is committed is done by
the person it is committed to, so nobody else's work moves. -/

namespace Planner

namespace Store

variable {s s' : Store} {today : Date} {req : PlanRequest} {who : UUID}

theorem overrideTable_replan (h : s.replanRequest today = some req) (p : UUID) (d : Date) :
    req.overrideTable.get? (p, d) = (s.dayOverrides.get? (p, d)).map OverrideRow.capacityH := by
  obtain ⟨-, rfl⟩ := replanRequest_some h
  have hrows : s.overrideList.map (fun o => ((o.personId, o.day), o.capacityH)) =
      s.dayOverrides.entries.map fun e => (e.1, e.2.capacityH) := by
    rw [overrideList, List.map_map]
    rfl
  rw [PlanRequest.overrideTable, hrows, OrdDict.get?_ofList_map, OrdDict.get?_ofList_entries]

/-- The request after a vacation: other overrides of the person, and nothing else. -/
theorem Covers.replanRequest {intent : VacationIntent} {actorId : Option UUID} (h : s.Covers intent who actorId s')
    (hreq : s.replanRequest today = some req) :
    ∃ req', s'.replanRequest today = some req' ∧ req.DiffersFor (· = who) req' := by
  have hpeople : s'.solverPeople = s.solverPeople := by rw [h.rest]; rfl
  have htasks : s'.rebuiltTasks = s.rebuiltTasks := by rw [h.rest]; rfl
  have hdeps : s'.dependencyList = s.dependencyList := by rw [h.rest]; rfl
  have hsome : s'.replanRequest today = some { req with dayOverrides := s'.overrideList } := by
    unfold Store.replanRequest at hreq ⊢
    rw [hpeople, htasks, hdeps]
    split at hreq
    · cases hreq
    · rename_i hwork
      rw [if_neg hwork, ← Option.some.inj hreq]
  refine ⟨_, hsome, rfl, rfl, rfl, List.forall₂_same.mpr fun _ _ => ⟨rfl, fun _ => rfl⟩, fun p d hp => ?_, fun _ _ => rfl⟩
  rw [overrideTable_replan hsome, overrideTable_replan hreq, h.others p hp]

/-- A committed task has one candidate, the person it is committed to. -/
theorem Staffed.mayTake (hstaffed : s.Staffed) (h : s.replanRequest today = some req) {t : Task} (ht : t ∈ req.tasks)
    {p : UUID} (hp : req.MayTake t p) : t.allowedPersonIds = [p] := by
  obtain ⟨c, hc, rfl⟩ := hp
  obtain ⟨-, rfl⟩ := replanRequest_some h
  obtain ⟨a, ha, rfl⟩ := List.mem_map.mp ht
  have hperson : c.id = a.personId :=
    allowedPeople_bound (hstaffed a (List.mem_of_mem_filter ha)) rfl hc
  rw [hperson]
  rfl

/-- Nothing is stirred beyond the person's own tasks. -/
theorem Grown.stirred_own (hs : s.Grown) (hstaffed : s.Staffed) (h : s.replanRequest today = some req) {t : Task}
    (ht : req.Stirred (· = who) t) : t.allowedPersonIds = [who] := by
  induction ht with
  | own ht hp hwho => exact hwho ▸ hstaffed.mayTake h ht.mem hp
  | waiting ht hmovable hu hreq ih =>
    obtain ⟨d, hd, -⟩ := hreq
    rw [(hs.replan_plain h).no_deps] at hd
    cases hd
  | sharing ht hp hu hours hq ih =>
    have hsame := hstaffed.mayTake h hours.mem hq
    rw [hstaffed.mayTake h ht.mem hp, ← hsame, ih]

theorem Grown.stirredPerson_own (hs : s.Grown) (hstaffed : s.Staffed) (h : s.replanRequest today = some req) {p : UUID}
    (hp : req.StirredPerson (· = who) p) : p = who := by
  rcases hp with hp | ⟨u, hours, hu, hq⟩
  · exact hp
  · have hone := hstaffed.mayTake h hours.mem hq
    rw [hs.stirred_own hstaffed h hu] at hone
    exact (List.cons.inj hone).1.symm

end Store

/-- The task of a replanned assignment, and who it may go to. -/
theorem replanned_task {s : Store} {solver : GreedySolver} {today : Date} {req : PlanRequest} {plan : PlanResult}
    (hs : s.Grown) (h : s.replanRequest today = some req) (hplan : solver.plan req = .ok plan) {a : Assignment}
    (ha : a ∈ plan.assignments) : ∃ t ∈ req.tasks, a.taskId = t.id ∧ req.MayTake t a.personId := by
  obtain ⟨t, ht, _, _, person, p, -, hplaced, rfl⟩ := placed_of_plan (hs.replan_plain h).unpinned hplan ha
  exact ⟨t, ht, rfl, person, hplaced.person_mem, rfl⟩

/-- In any run of requests: what a replan shows of the others is the same before
and after a vacation. Only tasks committed to the person on vacation move, and
only overloads of that person come or go. -/
theorem vacation_preview (solver : GreedySolver) (today : Date) (s₀ : Store) (hs : s₀.WF)
    (hempty : s₀.planVersions = .empty) (acts : List Act) (hstaffed : (s₀.after acts).Staffed)
    (intent : VacationIntent) (actorId : Option UUID) (isAdmin : Bool) (count : Nat) (s' : Store)
    (hvacation : (setVacation intent actorId isAdmin).run (s₀.after acts) = (.ok count, s')) (plan : PlanResult)
    (hplan : (buildReplanSummary solver today).run (s₀.after acts) = (.ok (some plan), s₀.after acts)) :
    ∃ person plan', (s₀.after acts).personByName intent.personName = some person ∧
      (buildReplanSummary solver today).run s' = (.ok (some plan'), s') ∧
      (∀ a : Assignment, a.personId ≠ person.id → (a ∈ plan'.assignments ↔ a ∈ plan.assignments)) ∧
      (∀ tid ∈ (diff plan plan').movedTasks, ∃ a ∈ (s₀.after acts).committedAssignments,
        a.taskId = tid ∧ a.personId = person.id) ∧
      ∀ r ∈ (diff plan plan').newOverloads ++ (diff plan plan').removedOverloads, ∃ d, r.ListsOverload person.id d := by
  have hgrown := Store.grown_after hs hempty acts
  generalize s₀.after acts = s at *
  obtain ⟨person, hperson, hvalid, -, hs'⟩ := setVacation_ok hvacation
  have hcovers : s.Covers intent person.id actorId s' :=
    hs' ▸ covers_daysOff (validVacation_ok_iff.mp hvalid).1 person.id
  have hgrown' : s'.Grown := by
    have hafter := hgrown.perform (.setVacation intent actorId isAdmin)
    rwa [Act.perform, hvacation] at hafter
  obtain ⟨req, hreq, hrun⟩ := buildReplanSummary_planned hplan
  obtain ⟨req', hreq', hother⟩ := hcovers.replanRequest hreq
  have hids := (hgrown.replan_plain hreq).ids
  obtain ⟨plan', hrun'⟩ := hother.plan_isOk hids hrun
  refine ⟨person, plan', hperson, buildReplanSummary_of_plan hreq' hrun', fun a hne => ?_, fun tid htid => ?_, fun r hr => ?_⟩
  · have hiff : ∀ t ∈ req.tasks, a.taskId = t.id → req.MayTake t a.personId →
        (a ∈ plan'.assignments ↔ a ∈ plan.assignments) := by
      intro t ht hid hmay
      refine hother.kept hids hrun hrun' ht (fun hstirred => hne ?_) hid
      have hone := hstaffed.mayTake hreq ht hmay
      rw [hgrown.stirred_own hstaffed hreq hstirred] at hone
      exact (List.cons.inj hone).1.symm
    constructor
    · intro ha
      obtain ⟨t, ht, hid, hmay⟩ := replanned_task hgrown' hreq' hrun' ha
      exact (hiff t (hother.tasks ▸ ht) hid (hother.mayTake.mp hmay)).mp ha
    · intro ha
      obtain ⟨t, ht, hid, hmay⟩ := replanned_task hgrown hreq hrun ha
      exact (hiff t ht hid hmay).mpr ha
  · obtain ⟨t, ht, rfl, hstirred⟩ := hother.moved hids hrun hrun' htid
    have hown := hgrown.stirred_own hstaffed hreq hstirred
    obtain ⟨-, rfl⟩ := Store.replanRequest_some hreq
    obtain ⟨a, ha, rfl⟩ := List.mem_map.mp ht
    exact ⟨a, List.mem_of_mem_filter ha, rfl, (List.cons.inj hown).1⟩
  · obtain ⟨p, d, hlists, hp⟩ := hother.overloads_changed hids hrun hrun' hr
    rw [hgrown.stirredPerson_own hstaffed hreq hp] at hlists
    exact ⟨d, hlists⟩

/-- Anna's shooting is planned and confirmed. -/
def committedShooting : List Act :=
  [.addProject .onWeekdays { title := "Ролик", templateCode := "lite" } none anna shooting 1 [] [] none,
    .confirm none 6 none]

theorem vacation_preview_shooting : ∃ s' plan person plan',
    (setVacation ⟨"Анна", 1, 2, 0⟩ none true).run (shootingStore.after committedShooting) = (.ok 2, s') ∧
    (shootingStore.after committedShooting).personByName "Анна" = some person ∧
    (buildReplanSummary .onWeekdays 1).run s' = (.ok (some plan'), s') ∧
    (∀ a : Assignment, a.personId ≠ person.id → (a ∈ plan'.assignments ↔ a ∈ plan.assignments)) ∧
    (∀ tid ∈ (diff plan plan').movedTasks, ∃ a ∈ (shootingStore.after committedShooting).committedAssignments,
      a.taskId = tid ∧ a.personId = person.id) ∧
    ∀ r ∈ (diff plan plan').newOverloads ++ (diff plan plan').removedOverloads,
      ∃ d, r.ListsOverload person.id d := by
  obtain ⟨s', hvacation⟩ : ∃ s', (setVacation ⟨"Анна", 1, 2, 0⟩ none true).run (shootingStore.after committedShooting) =
      (.ok 2, s') := ⟨_, rfl⟩
  obtain ⟨plan, hplan⟩ : ∃ plan, (buildReplanSummary .onWeekdays 1).run (shootingStore.after committedShooting) =
      (.ok (some plan), shootingStore.after committedShooting) := ⟨_, rfl⟩
  obtain ⟨person, plan', hreach⟩ := vacation_preview .onWeekdays 1 shootingStore (by constructor <;> decide) rfl
    committedShooting (by unfold Store.Staffed; decide) _ none true 2 s' hvacation plan hplan
  exact ⟨s', plan, person, plan', hvacation, hreach⟩

end Planner
