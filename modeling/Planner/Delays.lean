import Mathlib.Algebra.Order.BigOperators.Group.List
import Planner.BackwardMode
import Planner.Lib.Chains

/-! What the earliest end makes of a change. More of anything never brings it
nearer, and the estimate of one task counts for what its slack leaves of it. -/

namespace Planner

/-- Every task and every link of `req` is also in the other request, where no
task takes fewer hours or has a greater smallest capacity. -/
structure PlanRequest.NoHarder (req req' : PlanRequest) : Prop where
  tasks : ∀ t ∈ req.tasks, ∃ t' ∈ req'.tasks, t'.id = t.id ∧ t.durationHours ≤ t'.durationHours ∧
    smallestCapacity req' t' ≤ smallestCapacity req t
  requires : ∀ u v, req.Requires u v → req'.Requires u v

def Task.estimated (tid : UUID) (hours : Int) (u : Task) : Task :=
  if u.id = tid then { u with durationHours := hours } else u

/-- The request with another estimate of one task. -/
def PlanRequest.estimated (req : PlanRequest) (tid : UUID) (hours : Int) : PlanRequest :=
  { req with tasks := req.tasks.map (Task.estimated tid hours) }

section Ends

variable {s : GreedySolver} {req : PlanRequest}

theorem PlanRequest.IsTaskChain.nodup (hacyclic : ¬ req.Cyclic) {chain : List Task} (h : req.IsTaskChain chain) :
    chain.Nodup := by
  have hids : (chain.map Task.id).Nodup := by
    refine Chains.nodup_of_acyclic (r := req.Requires) (fun v hv => hacyclic ⟨v, hv⟩) ?_
    exact (List.isChain_map _).mpr h.linked
  exact hids.of_map

/-- The shown end lies as many working days on as the longest chain takes, and two more. -/
theorem GreedySolver.presentedEarliestEnd_ok (hids : (req.tasks.map Task.id).Nodup) (hclosed : req.Closed)
    (hacyclic : ¬ req.Cyclic) (start : Date) : ∃ L, IsGreatest (Chains.totals req.IsTaskChain (dayCount req)) L ∧
      s.presentedEarliestEnd req start = .ok (workday s.calendar start (L - 1 + 2)) := by
  obtain ⟨order, hrun⟩ := (run_isSome_iff (s := s)).mpr hacyclic
  refine ⟨_, isGreatest_chain hids hclosed (s.topologicalSort.sound _ _ hrun), ?_⟩
  rw [presentedEarliestEnd, s.criticalPathEnd_ok hclosed start hrun, workday_succ, workday_succ]
  rfl

theorem not_cyclic_of_presentedEarliestEnd {start e : Date} (h : s.presentedEarliestEnd req start = .ok e) :
    req.Closed ∧ ¬ req.Cyclic := by
  rw [GreedySolver.presentedEarliestEnd] at h
  cases hend : s.criticalPathEnd req start with
  | error err =>
    rw [hend] at h
    cases h
  | ok e₀ =>
    refine ⟨s.closed_of_criticalPathEnd hend, (run_isSome_iff (s := s)).mp ?_⟩
    unfold GreedySolver.criticalPathEnd at hend
    dsimp only at hend
    split at hend
    · cases hend
    · rename_i order hrun
      exact ⟨order, hrun⟩

end Ends

section Calendars

variable {cal cal' : WorkingCalendar}

/-- Fewer working days, and the same count of them ends no sooner. -/
theorem workday_le_workday (hcal : ∀ d, cal'.isWorkingDay d = true → cal.isWorkingDay d = true) {start start' : Date}
    (hstart : start ≤ start') {m n : Nat} (hmn : m ≤ n) : workday cal start m ≤ workday cal' start' n := by
  have hsame : ∀ k, workday cal start k ≤ workday cal' start' k := by
    intro k
    induction k with
    | zero =>
      rw [workday_zero, workday_zero]
      apply firstWorkingDay_le
      · exact hstart.trans (le_firstWorkingDay start')
      · exact hcal _ (firstWorkingDay_working start')
    | succ k ih =>
      rw [workday_succ, workday_succ]
      apply cal.next_least
      · exact Nat.lt_of_le_of_lt ih (cal'.lt_next _)
      · exact hcal _ (cal'.next_working _)
  exact (hsame m).trans ((workday_strictMono start').monotone hmn)

end Calendars

section Harder

variable {req req' : PlanRequest}

theorem dayCount_mono {t t' : Task} (hhours : t.durationHours ≤ t'.durationHours)
    (hcap : smallestCapacity req' t' ≤ smallestCapacity req t) : dayCount req t ≤ dayCount req' t' := by
  unfold dayCount
  generalize hc : max 1 (smallestCapacity req t) = c
  generalize hc' : max 1 (smallestCapacity req' t') = c'
  have hpos : 1 ≤ c' := hc' ▸ le_max_left _ _
  have hcc : c' ≤ c := by
    rw [← hc, ← hc']
    exact max_le_max le_rfl hcap
  apply Int.toNat_le_toNat
  rcases le_total 0 t'.durationHours with h | h
  · refine max_le_max le_rfl (Int.ceil_mono ?_)
    apply div_le_div₀
    · exact_mod_cast h
    · exact_mod_cast hhours
    · exact_mod_cast hpos
    · exact_mod_cast hcc
  · -- no hours at all are a day as well
    have hzero : ⌈(t.durationHours : ℚ) / (c : ℤ)⌉ ≤ 0 := by
      apply Int.ceil_le.mpr
      apply div_nonpos_of_nonpos_of_nonneg
      · exact_mod_cast hhours.trans h
      · exact_mod_cast (zero_le_one.trans hpos).trans hcc
    exact (max_le le_rfl (hzero.trans zero_le_one)).trans (le_max_left _ _)

theorem PlanRequest.NoHarder.not_cyclic (h : req.NoHarder req') (hacyclic : ¬ req'.Cyclic) : ¬ req.Cyclic := by
  rintro ⟨v, hv⟩
  exact hacyclic ⟨v, Relation.TransGen.mono h.requires v v hv⟩

/-- The chain of the same ids. -/
theorem PlanRequest.NoHarder.chain (h : req.NoHarder req') {chain : List Task} (hchain : req.IsTaskChain chain) :
    ∃ chain', req'.IsTaskChain chain' ∧ (chain.map (dayCount req)).sum ≤ (chain'.map (dayCount req')).sum := by
  have hsome : ∀ t : Task, ∃ t', t ∈ req.tasks → t' ∈ req'.tasks ∧ t'.id = t.id ∧ dayCount req t ≤ dayCount req' t' := by
    intro t
    by_cases ht : t ∈ req.tasks
    · obtain ⟨t', ht', hid, hhours, hcap⟩ := h.tasks t ht
      exact ⟨t', fun _ => ⟨ht', hid, dayCount_mono hhours hcap⟩⟩
    · exact ⟨t, fun ht' => absurd ht' ht⟩
  choose f hf using hsome
  have hids : (chain.map f).map Task.id = chain.map Task.id := by
    rw [List.map_map]
    exact List.map_congr_left fun t ht => (hf t (hchain.tasks t ht)).2.1
  refine ⟨chain.map f, ⟨fun t' ht' => ?_, ?_⟩, ?_⟩
  · obtain ⟨t, ht, rfl⟩ := List.mem_map.mp ht'
    exact (hf t (hchain.tasks t ht)).1
  · have hlinked : (chain.map Task.id).IsChain req'.Requires := by
      rw [List.isChain_map]
      exact hchain.linked.imp fun t u => h.requires t.id u.id
    rw [← hids, List.isChain_map] at hlinked
    exact hlinked
  · rw [List.map_map]
    exact List.sum_le_sum fun t ht => (hf t (hchain.tasks t ht)).2.2

end Harder

section Estimates

variable {req : PlanRequest} {tid : UUID} {hours : Int}

theorem estimated_id (u : Task) : (u.estimated tid hours).id = u.id := by
  unfold Task.estimated
  split
  · rfl
  · rfl

theorem estimated_ids (l : List Task) : (l.map (Task.estimated tid hours)).map Task.id = l.map Task.id := by
  rw [List.map_map]
  exact List.map_congr_left fun u _ => estimated_id u

theorem estimated_requires : (req.estimated tid hours).Requires = req.Requires := rfl

theorem estimated_acyclic (hacyclic : ¬ req.Cyclic) : ¬ (req.estimated tid hours).Cyclic := by
  rwa [PlanRequest.Cyclic, estimated_requires]

theorem estimated_closed (hclosed : req.Closed) : (req.estimated tid hours).Closed := by
  have hids := @estimated_ids tid hours req.tasks
  intro d hd
  rw [show (req.estimated tid hours).tasks.map Task.id = req.tasks.map Task.id from hids]
  exact hclosed d hd

/-- Whoever may do a task still may. -/
theorem dayCount_estimated (u : Task) : dayCount (req.estimated tid hours) (u.estimated tid hours) =
    if u.id = tid then dayCount req { u with durationHours := hours } else dayCount req u := by
  unfold Task.estimated
  split
  · rfl
  · rfl

theorem totals_estimated (hids : (req.tasks.map Task.id).Nodup) :
    Chains.totals (req.estimated tid hours).IsTaskChain (dayCount (req.estimated tid hours)) =
      Chains.totals req.IsTaskChain fun u => dayCount (req.estimated tid hours) (u.estimated tid hours) := by
  have hids' : ((req.estimated tid hours).tasks.map Task.id).Nodup := by
    change ((req.tasks.map (Task.estimated tid hours)).map Task.id).Nodup
    rwa [estimated_ids]
  have hmem : ∀ {chain : List Task}, (∀ u ∈ chain, u ∈ req.tasks) →
      ∀ u ∈ chain.map (Task.estimated tid hours), u ∈ (req.estimated tid hours).tasks := by
    intro chain htasks u hu
    obtain ⟨v, hv, rfl⟩ := List.mem_map.mp hu
    exact List.mem_map_of_mem (htasks v hv)
  ext n
  constructor
  · rintro ⟨chain', hchain', rfl⟩
    -- the tasks of the same ids in the request itself
    obtain ⟨chain, htasks, hsame⟩ := @exists_tasks_of_ids req (chain'.map Task.id) fun v hv => by
      obtain ⟨u, hu, rfl⟩ := List.mem_map.mp hv
      rw [← @estimated_ids tid hours req.tasks]
      exact List.mem_map_of_mem (hchain'.tasks u hu)
    have hlinked : (chain'.map Task.id).IsChain req.Requires := (List.isChain_map _).mpr hchain'.linked
    rw [← hsame, List.isChain_map] at hlinked
    have hsum := sum_chainDays hids' (hmem htasks)
    rw [estimated_ids, hsame, sum_chainDays hids' hchain'.tasks, List.map_map] at hsum
    exact ⟨chain, ⟨htasks, hlinked⟩, hsum.symm⟩
  · rintro ⟨chain, hchain, rfl⟩
    have hlinked : (chain.map Task.id).IsChain req.Requires := (List.isChain_map _).mpr hchain.linked
    rw [← @estimated_ids tid hours chain, List.isChain_map] at hlinked
    refine ⟨chain.map (Task.estimated tid hours), ⟨hmem hchain.tasks, hlinked⟩, ?_⟩
    rw [List.map_map]
    rfl

end Estimates

/-- More tasks, links or hours, smaller capacities, fewer working days and a later
start never bring the end that is shown nearer. -/
theorem earliest_end_mono (s s' : GreedySolver) (req req' : PlanRequest) (h : req.NoHarder req')
    (hids : (req.tasks.map Task.id).Nodup) (hids' : (req'.tasks.map Task.id).Nodup) (hclosed : req.Closed)
    (hcal : ∀ d, s'.calendar.isWorkingDay d = true → s.calendar.isWorkingDay d = true) {start start' : Date}
    (hstart : start ≤ start') (e' : Date) (hend : s'.presentedEarliestEnd req' start' = .ok e') :
    ∃ e, s.presentedEarliestEnd req start = .ok e ∧ e ≤ e' := by
  obtain ⟨hclosed', hacyclic'⟩ := not_cyclic_of_presentedEarliestEnd hend
  obtain ⟨L', hL', hend'⟩ := GreedySolver.presentedEarliestEnd_ok (s := s') hids' hclosed' hacyclic' start'
  obtain ⟨L, hL, he⟩ := GreedySolver.presentedEarliestEnd_ok (s := s) hids hclosed (h.not_cyclic hacyclic') start
  have hle : L ≤ L' := Chains.greatest_le hL hL' fun _ hchain => h.chain hchain
  obtain rfl := Except.ok.inj (hend.symm.trans hend')
  refine ⟨_, he, workday_le_workday hcal hstart ?_⟩
  omega

theorem reviewRequest_closed : reviewRequest.Closed := by
  unfold PlanRequest.Closed
  decide

theorem reviewRequest_acyclic : ¬ reviewRequest.Cyclic := by
  have hrun : GreedySolver.onWeekdays.topologicalSort.run
      (buildDag reviewRequest.tasks reviewRequest.dependencies) = some [10, 11] := rfl
  exact (run_isSome_iff (s := .onWeekdays)).mp ⟨[10, 11], hrun⟩

/-- The first task takes an hour more, and all begins two days later. -/
theorem earliest_end_mono_review : ∃ e', GreedySolver.onWeekdays.presentedEarliestEnd (reviewRequest.estimated 10 21) 3 = .ok e' ∧
    ∃ e, GreedySolver.onWeekdays.presentedEarliestEnd reviewRequest 1 = .ok e ∧ e ≤ e' := by
  obtain ⟨L, -, hend⟩ := @GreedySolver.presentedEarliestEnd_ok .onWeekdays (reviewRequest.estimated 10 21)
    (by decide) (estimated_closed reviewRequest_closed) (estimated_acyclic reviewRequest_acyclic) 3
  have hharder : reviewRequest.NoHarder (reviewRequest.estimated 10 21) := ⟨by decide, fun _ _ h => h⟩
  exact ⟨_, hend, earliest_end_mono .onWeekdays .onWeekdays _ _ hharder (by decide) (by decide) reviewRequest_closed
    (fun _ h => h) (by decide) _ hend⟩

/-- The end that is shown as a function of one estimate: up to the longest chain without
the task the days of the task change nothing, and from there on each is a working day. -/
theorem earliest_end_of_estimate (s : GreedySolver) (req : PlanRequest) (start : Date)
    (hids : (req.tasks.map Task.id).Nodup) (hclosed : req.Closed) (hacyclic : ¬ req.Cyclic) (t : Task) (ht : t ∈ req.tasks) :
    ∃ without others, IsGreatest (Chains.around req.IsTaskChain (dayCount req) t) without ∧
      IsGreatest (Chains.besides req.IsTaskChain (dayCount req) t) others ∧
      ∀ hours, s.presentedEarliestEnd (req.estimated t.id hours) start = .ok (workday s.calendar start
        (max without (others + dayCount req { t with durationHours := hours }) + 1)) := by
  obtain ⟨L, hL, -⟩ := GreedySolver.presentedEarliestEnd_ok (s := s) hids hclosed hacyclic start
  have hnil : req.IsTaskChain [] := ⟨fun u hu => absurd hu List.not_mem_nil, List.isChain_nil⟩
  obtain ⟨without, hwithout⟩ := Chains.exists_around (t := t) hL hnil
  obtain ⟨others, hothers⟩ := Chains.exists_besides hL
    (show req.IsTaskChain [t] from ⟨by simpa using ht, List.isChain_singleton t⟩)
  refine ⟨without, others, hwithout, hothers, fun hours => ?_⟩
  have hids' : ((req.estimated t.id hours).tasks.map Task.id).Nodup := by
    change ((req.tasks.map (Task.estimated t.id hours)).map Task.id).Nodup
    rwa [estimated_ids]
  obtain ⟨L', hL', hend⟩ := GreedySolver.presentedEarliestEnd_ok (s := s) hids' (estimated_closed hclosed)
    (estimated_acyclic hacyclic) start
  have hsame : ∀ chain, req.IsTaskChain chain → ∀ u ∈ chain, u ≠ t →
      dayCount (req.estimated t.id hours) (u.estimated t.id hours) = dayCount req u := by
    intro chain hchain u hu hne
    have hid : u.id ≠ t.id := fun he => hne (List.inj_on_of_nodup_map hids (hchain.tasks u hu) ht he)
    rw [dayCount_estimated, if_neg hid]
  have hmax := Chains.isGreatest_reweighted (fun _ hchain => hchain.nodup hacyclic) hwithout hothers hsame
  rw [← totals_estimated hids, dayCount_estimated, if_pos rfl] at hmax
  rw [hend, hL'.unique hmax]
  have hpos : 0 < dayCount req { t with durationHours := hours } := dayCount_eq ▸ (durationDays _ (peopleById req)).pos
  congr 2
  omega

theorem earliest_end_of_estimate_review : ∃ t ∈ reviewRequest.tasks, ∃ without others,
    IsGreatest (Chains.around reviewRequest.IsTaskChain (dayCount reviewRequest) t) without ∧
    IsGreatest (Chains.besides reviewRequest.IsTaskChain (dayCount reviewRequest) t) others ∧
    ∀ hours, GreedySolver.onWeekdays.presentedEarliestEnd (reviewRequest.estimated t.id hours) 1 =
      .ok (workday GreedySolver.onWeekdays.calendar 1
        (max without (others + dayCount reviewRequest { t with durationHours := hours }) + 1)) := by
  exact ⟨_, List.mem_cons_self, earliest_end_of_estimate .onWeekdays reviewRequest 1 (by decide) reviewRequest_closed
    reviewRequest_acyclic _ List.mem_cons_self⟩

end Planner
