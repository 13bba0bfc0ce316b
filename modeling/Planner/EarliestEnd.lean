import Planner.NetworkBound

/-! The earliest end that is shown for a network. It is no lower bound of the
plan, and without contention the plan does not meet it: chains are counted one
task after the other, at the smallest capacity of the binding, and without the lags. -/

namespace Planner

/-- The critical path ends, and no later than the plan. -/
def GreedySolver.EarliestEndHolds (s : GreedySolver) (req : PlanRequest) (res : PlanResult) : Prop :=
  ∃ e, s.criticalPathEnd req req.horizonStart = .ok e ∧ ∀ d ∈ res.endDate, e ≤ d

/-- The dependencies are between tasks of the request, no existing load gives
hours back, and no chain is longer one task after the other than some chain by the links. -/
structure PlanRequest.ChainsFit (req : PlanRequest) : Prop where
  closed : req.Closed
  load : ∀ al ∈ req.existingAllocations, 0 ≤ al.hours
  chains : ∀ path, req.IsPath path → ∃ path', req.IsPath path' ∧
    req.chainLength path ≤ req.networkLength path'

theorem pass_of_plan {s : GreedySolver} {req : PlanRequest} {res : PlanResult} (hreq : req.Regular)
    (hclosed : req.Closed) (hplan : s.plan req = .ok res) (hfits : s.NeverDumps req) : ∃ order st,
      s.topologicalSort.run (buildDag req.tasks req.dependencies) = some order ∧
      res = planResult req order st ∧ Pass s.calendar req order st := by
  obtain ⟨order, st, hrun, hall, rfl⟩ := plan_ok hplan
  exact ⟨order, st, hrun, rfl, hreq, hclosed, s.topologicalSort.sound _ _ hrun, hall, hfits order hrun⟩

/-- The earliest end is a lower bound if no chain is counted longer than the
network makes any; where nobody is contended for, only then. -/
theorem criticalPath_le_plan_iff (s : GreedySolver) (req : PlanRequest) (res : PlanResult) (hreq : req.Regular)
    (hplan : s.plan req = .ok res) (hfits : s.NeverDumps req) :
    (req.ChainsFit → s.EarliestEndHolds req res) ∧
      (req.Uncontended → s.EarliestEndHolds req res → req.ChainsFit) := by
  constructor
  · intro hfit
    obtain ⟨order, st, hrun, rfl, hpass⟩ := pass_of_plan hreq hfit.closed hplan hfits
    refine ⟨_, s.criticalPathEnd_ok hfit.closed req.horizonStart hrun, fun d hd => ?_⟩
    have hne : order ≠ [] := fun hnil => by
      rw [hpass.endDate_nil hnil] at hd
      cases hd
    obtain ⟨d', hd', hle⟩ := hpass.exists_endDate hfit.load hne
    obtain rfl := Option.some.inj (hd'.symm.trans hd)
    exact (workday_le_iff.mpr (Nat.sub_le_sub_right (hpass.chainEnd_le_iff.mpr hfit.chains) 1)).trans hle
  · rintro hown ⟨e, he, hle⟩
    have hclosed := s.closed_of_criticalPathEnd he
    have hload : ∀ al ∈ req.existingAllocations, 0 ≤ al.hours := by
      rw [hown.no_load]
      nofun
    obtain ⟨order, st, hrun, rfl, hpass⟩ := pass_of_plan hreq hclosed hplan hfits
    refine ⟨hclosed, hload, hpass.chainEnd_le_iff.mp ?_⟩
    by_cases hne : order = []
    · subst hne
      exact Nat.le_refl 0
    · obtain ⟨d, hd, -⟩ := hpass.exists_endDate hload hne
      obtain rfl := Except.ok.inj ((s.criticalPathEnd_ok hclosed req.horizonStart hrun).symm.trans he)
      have hdays := workday_le_iff.mp ((hle d hd).trans (hpass.endDate_le hown hd))
      have hpos := hpass.networkEnd_pos hne
      exact (Nat.sub_le_sub_iff_right hpos).mp hdays

/-- A start-to-start pair of single days. -/
def overlapRequest : PlanRequest where
  people := [{ id := 1, name := "Анна" }, { id := 2, name := "Борис" }]
  tasks := [
    { id := 10, name := "Съёмка", durationHours := 8, allowedPersonIds := [1] },
    { id := 11, name := "Звук", durationHours := 8, allowedPersonIds := [2] }]
  dependencies := [⟨11, 10, .SS, 0⟩]
  horizonStart := 1

theorem neverDumps_of_run {s : GreedySolver} {req : PlanRequest} {order : List UUID}
    (hrun : s.topologicalSort.run (buildDag req.tasks req.dependencies) = some order)
    (h : neverDumps s.calendar req (buildDag req.tasks req.dependencies) order
      (startState s.calendar req) = true) : s.NeverDumps req := by
  intro order' hrun'
  obtain rfl := Option.some.inj (hrun.symm.trans hrun')
  exact h

theorem criticalPath_le_plan_iff_review : ∃ res, GreedySolver.onWeekdays.plan reviewRequest = .ok res ∧
    (reviewRequest.ChainsFit → GreedySolver.onWeekdays.EarliestEndHolds reviewRequest res) ∧
      (reviewRequest.Uncontended → GreedySolver.onWeekdays.EarliestEndHolds reviewRequest res →
        reviewRequest.ChainsFit) :=
  ⟨_, rfl, criticalPath_le_plan_iff .onWeekdays reviewRequest _ (by constructor <;> decide) rfl
    (@neverDumps_of_run .onWeekdays reviewRequest [10, 11] rfl rfl)⟩

/-- The pair is over on the first day, the critical path on the second. -/
theorem overlap_ends_earlier : ∃ res, GreedySolver.onWeekdays.plan overlapRequest = .ok res ∧
    overlapRequest.Regular ∧ GreedySolver.onWeekdays.NeverDumps overlapRequest ∧
    ¬ GreedySolver.onWeekdays.EarliestEndHolds overlapRequest res := by
  refine ⟨_, rfl, by constructor <;> decide, @neverDumps_of_run .onWeekdays overlapRequest [10, 11] rfl rfl, ?_⟩
  rintro ⟨e, he, hle⟩
  have hcp : GreedySolver.onWeekdays.criticalPathEnd overlapRequest 1 = .ok 2 := rfl
  obtain rfl := Except.ok.inj (hcp.symm.trans he)
  exact absurd (hle 1 rfl) (by decide)

/-- Single days or splittable work, each task with an executor of its own, one after the other. -/
structure PlanRequest.Solo (req : PlanRequest) : Prop where
  positive : ∀ t ∈ req.tasks, 0 < t.durationHours
  movable : ∀ t ∈ req.tasks, t.status ≠ .done
  single : ∀ t ∈ req.tasks, t.durationIsWindow = false ∧ t.pairMode ≠ .required
  executor : ∀ t ∈ req.tasks, ∃ p, t.allowedPersonIds = [p.id] ∧ (peopleById req).get? p.id = some p ∧
    1 ≤ p.capacityH ∧ (t.isSplittable = false → t.durationHours ≤ p.capacityH)
  own : ∀ t ∈ req.tasks, ∀ u ∈ req.tasks, t.id ≠ u.id → t.allowedPersonIds ≠ u.allowedPersonIds
  links : ∀ d ∈ req.dependencies, d.linkType = .FS ∧ 0 ≤ d.lagWorkingDays
  closed : req.Closed
  no_load : req.existingAllocations = []
  no_overrides : req.dayOverrides = []

namespace PlanRequest.Solo

variable {req : PlanRequest}

theorem allowed (h : req.Solo) {t : Task} (ht : t ∈ req.tasks) : ∃ p, allowedPeople req t = [p] ∧
    t.allowedPersonIds = [p.id] ∧ (peopleById req).get? p.id = some p ∧ 1 ≤ p.capacityH ∧
      (t.isSplittable = false → t.durationHours ≤ p.capacityH) := by
  obtain ⟨p, hbound, hpool, hcap, hwhole⟩ := h.executor t ht
  exact ⟨p, by simp [allowedPeople, hbound, hpool], hbound, hpool, hcap, hwhole⟩

theorem regular (h : req.Solo) : req.Regular where
  positive := h.positive
  movable := h.movable
  bound t ht := by
    obtain ⟨p, -, hbound, hpool, -⟩ := h.allowed ht
    have hk : p.id ∈ (peopleById req).keys := OrdDict.mem_keys.mpr (by simp [hpool])
    rw [peopleById, OrdDict.mem_keys_ofList, List.map_map] at hk
    rw [hbound]
    exact ⟨List.cons_ne_nil _ _, fun pid hpid => List.mem_singleton.mp hpid ▸ hk⟩
  able t ht _ q hq := by
    obtain ⟨p, hallowed, -, -, hcap, -⟩ := h.allowed ht
    rw [hallowed, List.mem_singleton] at hq
    exact hq ▸ hcap
  whole t ht _ hs q hq := by
    obtain ⟨p, hallowed, -, -, -, hwhole⟩ := h.allowed ht
    rw [hallowed, List.mem_singleton] at hq
    exact hq ▸ hwhole hs
  lags d hd := (h.links d hd).2
  no_overrides := h.no_overrides

theorem uncontended (h : req.Solo) : req.Uncontended where
  no_load := h.no_load
  own t ht u hu _ _ hne pid hpt hpu := by
    obtain ⟨p, -, hbt, -⟩ := h.allowed ht
    obtain ⟨q, -, hbu, -⟩ := h.allowed hu
    rw [hbt, List.mem_singleton] at hpt
    rw [hbu, List.mem_singleton] at hpu
    exact h.own t ht u hu hne (by rw [hbt, hbu, ← hpt, ← hpu])

end PlanRequest.Solo

/-- Without contention the plan is over with the critical path iff no chain is
longer with its lags than the longest one without them. -/
theorem plan_le_criticalPath_iff (s : GreedySolver) (req : PlanRequest) (res : PlanResult) (hreq : req.Solo)
    (hplan : s.plan req = .ok res) (hfits : s.NeverDumps req) :
    (∀ d ∈ res.endDate, ∃ e, s.criticalPathEnd req req.horizonStart = .ok e ∧ d ≤ e) ↔
      ∀ path, req.IsPath path → ∃ path', req.IsPath path' ∧ req.networkLength path ≤ req.chainLength path' := by
  obtain ⟨order, st, hrun, rfl, hpass⟩ := pass_of_plan hreq.regular hreq.closed hplan hfits
  have hload : ∀ al ∈ req.existingAllocations, 0 ≤ al.hours := by
    rw [hreq.no_load]
    nofun
  have hcp := s.criticalPathEnd_ok hreq.closed req.horizonStart hrun
  rw [← hpass.networkEnd_le_iff]
  constructor
  · intro hmeets
    by_cases hne : order = []
    · subst hne
      exact Nat.le_refl 0
    · obtain ⟨d, hd, hge⟩ := hpass.exists_endDate hload hne
      obtain ⟨e, he, hle⟩ := hmeets d hd
      obtain rfl := Except.ok.inj (hcp.symm.trans he)
      have hdays : networkEnd req order - 1 ≤ chainEnd req order - 1 := workday_le_iff.mp (hge.trans hle)
      exact (Nat.sub_le_sub_iff_right (hpass.chainEnd_pos hne)).mp hdays
  · intro hle d hd
    refine ⟨_, hcp, (hpass.endDate_le hreq.uncontended hd).trans ?_⟩
    exact workday_le_iff.mpr (Nat.sub_le_sub_right hle 1)

/-- Feedback comes in on the fifth working day. -/
def feedbackRequest : PlanRequest where
  people := [{ id := 1, name := "Анна" }, { id := 2, name := "Борис" }]
  tasks := [
    { id := 10, name := "Съёмка", durationHours := 8, allowedPersonIds := [1] },
    { id := 11, name := "Правки", durationHours := 8, allowedPersonIds := [2] }]
  dependencies := [⟨11, 10, .FS, 5⟩]
  horizonStart := 1

theorem feedbackRequest_solo : feedbackRequest.Solo := by
  constructor
  case executor =>
    intro t ht
    simp only [feedbackRequest, List.mem_cons, List.not_mem_nil, or_false] at ht
    rcases ht with rfl | rfl
    · exact ⟨⟨1, "Анна", 8⟩, rfl, rfl, by decide⟩
    · exact ⟨⟨2, "Борис", 8⟩, rfl, rfl, by decide⟩
  case closed =>
    unfold PlanRequest.Closed
    decide
  all_goals decide

theorem feedbackRequest_fits : GreedySolver.onWeekdays.NeverDumps feedbackRequest :=
  @neverDumps_of_run .onWeekdays feedbackRequest [10, 11] rfl rfl

theorem plan_le_criticalPath_iff_feedback : ∃ res, GreedySolver.onWeekdays.plan feedbackRequest = .ok res ∧
    ((∀ d ∈ res.endDate, ∃ e, GreedySolver.onWeekdays.criticalPathEnd feedbackRequest 1 = .ok e ∧ d ≤ e) ↔
      ∀ path, feedbackRequest.IsPath path → ∃ path', feedbackRequest.IsPath path' ∧
        feedbackRequest.networkLength path ≤ feedbackRequest.chainLength path') :=
  ⟨_, rfl, plan_le_criticalPath_iff .onWeekdays feedbackRequest _ feedbackRequest_solo rfl feedbackRequest_fits⟩

/-- The plan is over on the Monday after, the critical path on the second day. -/
theorem feedback_ends_later : ∃ res, GreedySolver.onWeekdays.plan feedbackRequest = .ok res ∧
    feedbackRequest.Solo ∧ GreedySolver.onWeekdays.NeverDumps feedbackRequest ∧
    ¬ ∀ d ∈ res.endDate, ∃ e, GreedySolver.onWeekdays.criticalPathEnd feedbackRequest 1 = .ok e ∧ d ≤ e := by
  refine ⟨_, rfl, feedbackRequest_solo, feedbackRequest_fits, fun h => ?_⟩
  obtain ⟨e, he, hle⟩ := h 8 rfl
  have hcp : GreedySolver.onWeekdays.criticalPathEnd feedbackRequest 1 = .ok 2 := rfl
  obtain rfl := Except.ok.inj (hcp.symm.trans he)
  exact absurd hle (by decide)

end Planner
