import Mathlib.Tactic.Linarith
import Mathlib.Tactic.Positivity
import Planner.Accounting
import Planner.Network

/-! How many working days a placement takes: no fewer than the fewest for anyone
allowed, and exactly those when everyone allowed is free. -/

namespace Planner

section Days

theorem workday_first {cal : WorkingCalendar} {earliest : Date} (n : Nat) :
    workday cal (firstWorkingDay cal earliest) n = workday cal earliest n := by
  rw [← workday_zero, workday_add, Nat.zero_add]

theorem daysAt_spec {hours cap : Int} (hc : 0 < cap) (hh : 0 < hours) :
    cap * ((daysAt hours cap - 1 : Nat) : Int) < hours ∧ hours ≤ cap * (daysAt hours cap : Int) := by
  have hle : cap * (-hours / cap) ≤ -hours := Int.mul_ediv_self_le hc.ne'
  have hlt : -hours < cap * (-hours / cap) + cap := Int.lt_mul_ediv_self_add hc
  obtain ⟨q, hq⟩ : ∃ q, q = -(-hours / cap) := ⟨_, rfl⟩
  have hdiv : -hours / cap = -q := by omega
  rw [hdiv] at hle hlt
  have hge : hours ≤ cap * q := by
    rw [mul_neg] at hle
    linarith
  have hstep : cap * (q - 1) < hours := by
    rw [mul_neg] at hlt
    rw [mul_sub, mul_one]
    linarith
  have hqpos : 0 < q := (mul_pos_iff_of_pos_left hc).mp (hh.trans_le hge)
  have hdays : (daysAt hours cap : Int) = q := by
    unfold daysAt
    omega
  have hpred : ((daysAt hours cap - 1 : Nat) : Int) = q - 1 := by
    rw [← hdays]
    have := daysAt_pos hours cap
    omega
  rw [hpred, hdays]
  exact ⟨hstep, hge⟩

end Days

section Fill

variable {cal : WorkingCalendar} {free : UUID → Date → Int} {pid : UUID} {cap : Int}

/-- At no more than `cap` a day, work of more than `j` days is not over before the day after. -/
theorem fillDays_late (hcap : ∀ d, cal.isWorkingDay d = true → free pid d ≤ cap) (hpos : 0 < cap) {fuel : Nat} {day : Date}
    {remaining : Int} {j : Nat} (hrem : cap * j < remaining)
    (hdone : (fillDays cal free pid fuel day remaining).2 ≤ 0) :
    ∃ a ∈ (fillDays cal free pid fuel day remaining).1, workday cal day j ≤ a.day := by
  have hnonneg : 0 ≤ cap * (j : Int) := by positivity
  induction fuel generalizing day remaining j with
  | zero =>
    simp only [fillDays] at hdone
    omega
  | succ fuel ih =>
    have h0 : ¬ remaining ≤ 0 := by omega
    simp only [fillDays, h0, if_false] at hdone ⊢
    split at hdone
    · rename_i hw
      simp only [if_pos hw]
      cases j with
      | zero =>
        refine ⟨_, List.mem_cons_self, ?_⟩
        exact (firstWorkingDay_of_working hw.1).le
      | succ j =>
        have hnext : cap * (j : Int) < remaining - min (free pid day) remaining := by
          have hmin := (min_le_left (free pid day) remaining).trans (hcap day hw.1)
          push_cast at hrem
          linarith
        obtain ⟨a, ha, hle⟩ := ih hnext hdone (by positivity)
        exact ⟨a, List.mem_cons_of_mem _ ha, (workday_day_after hw.1 j) ▸ hle⟩
    · rename_i hw
      simp only [if_neg hw]
      obtain ⟨a, ha, hle⟩ := ih hrem hdone hnonneg
      exact ⟨a, ha, (workday_mono_left (Nat.le_succ day) j).trans hle⟩

/-- With `cap` free on every working day, `j + 1` of them are enough. -/
theorem fillDays_early (hpos : 0 < cap) (hfree : ∀ d, cal.isWorkingDay d = true → free pid d = cap) {fuel : Nat}
    {day : Date} {remaining : Int} {j : Nat} (hrem : remaining ≤ cap * (j + 1)) {a : DayAllocation}
    (ha : a ∈ (fillDays cal free pid fuel day remaining).1) : a.day ≤ workday cal day j := by
  induction fuel generalizing day remaining j with
  | zero => simp [fillDays] at ha
  | succ fuel ih =>
    simp only [fillDays] at ha
    split at ha
    · simp at ha
    · split at ha
      · rename_i hw
        rcases List.mem_cons.mp ha with rfl | ha
        · exact le_workday day j
        · rw [hfree day hw.1] at ha
          cases j with
          | zero =>
            have hdone : remaining - min cap remaining ≤ 0 := by
              rw [min_eq_right (by simpa using hrem)]
              omega
            cases fuel <;> simp [fillDays, hdone] at ha
          | succ j =>
            rw [← workday_day_after hw.1 j]
            refine ih ?_ ha
            rcases min_choice cap remaining with h | h
            · rw [h]
              push_cast at hrem ⊢
              linarith
            · rw [h, sub_self]
              have := mul_nonneg (hfree day hw.1 ▸ hw.2).le (by positivity : (0 : Int) ≤ j + 1)
              exact this
      · rename_i hw
        have hoff : cal.isWorkingDay day = false := by
          refine Bool.eq_false_iff.mpr fun h => hw ⟨h, ?_⟩
          rwa [hfree day h]
        exact (workday_day_off hoff j) ▸ ih hrem ha

theorem fillDays_first (hpos : 0 < cap) (hfree : ∀ d, cal.isWorkingDay d = true → free pid d = cap)
    {fuel : Nat} {day : Date} (hday : cal.isWorkingDay day = true) {remaining : Int} (hrem : 0 < remaining) :
    0 < (fillDays cal free pid fuel day remaining).2 ∨
      ∃ a ∈ (fillDays cal free pid fuel day remaining).1, a.day = day := by
  cases fuel with
  | zero => exact Or.inl hrem
  | succ fuel =>
    have hw : cal.isWorkingDay day = true ∧ 0 < free pid day := ⟨hday, (hfree day hday).symm ▸ hpos⟩
    simp only [fillDays, not_le.mpr hrem, if_false, if_pos hw]
    exact Or.inr ⟨_, List.mem_cons_self, rfl⟩

end Fill

/-- The search of the placement found room; no dump on the first day. -/
def fitsIn (task : Task) (earliest : Date) (cal : WorkingCalendar) (free : UUID → Date → Int)
    (limit : Date) (allowed : List Person) (personId : UUID) : Bool :=
  let day := firstWorkingDay cal earliest
  let fuel := limit + 1 - day
  if task.durationIsWindow then true
  else
    match task.pairMode, allowed with
    | .required, p1 :: p2 :: _ =>
      (firstFit cal free [p1.id, p2.id] task.durationHours fuel day).isSome
    | _, _ =>
      if task.isSplittable then (fillDays cal free personId fuel day task.durationHours).2 ≤ 0
      else (firstFit cal free [personId] task.durationHours fuel day).isSome

/-- At every turn of the pass. -/
def neverDumps (cal : WorkingCalendar) (req : PlanRequest) (graph : Dag) : List UUID → PlanState → Bool
  | [], _ => true
  | tid :: rest, st =>
    match placeTask cal req graph st tid with
    | .error _ => true
    | .ok st' =>
      (match (tasksById req).get? tid, st'.assignments.get? tid with
        | some task, some a =>
          fitsIn task (earliestStart task graph st.assignments req.horizonStart cal) cal st.idx.free
            (horizonLimit req) (allowedPeople req task) a.personId
        | _, _ => true) && neverDumps cal req graph rest st'

/-- No placement of the plan falls back to the overload dump. -/
def GreedySolver.NeverDumps (s : GreedySolver) (req : PlanRequest) : Prop :=
  ∀ order, s.topologicalSort.run (buildDag req.tasks req.dependencies) = some order →
    neverDumps s.calendar req (buildDag req.tasks req.dependencies) order (startState s.calendar req) = true

theorem neverDumps_append {cal : WorkingCalendar} {req : PlanRequest} {graph : Dag}
    {pre post : List UUID} {st mid : PlanState} (h : neverDumps cal req graph (pre ++ post) st = true)
    (hpre : placeAll cal req graph pre st = .ok mid) : neverDumps cal req graph post mid = true := by
  induction pre generalizing st with
  | nil => exact Except.ok.inj hpre ▸ h
  | cons tid pre ih =>
    simp only [placeAll] at hpre
    split at hpre
    · cases hpre
    · rename_i st₁ h₁
      simp only [List.cons_append, neverDumps, h₁, Bool.and_eq_true] at h
      exact ih h.2 hpre

section Modes

variable {task : Task} {earliest : Date} {cal : WorkingCalendar} {free : UUID → Date → Int}
  {limit : Date} {allowed : List Person} {person : Person} {p : Placement}

theorem fitsIn_pair {p1 p2 : Person} {rest : List Person} (hw : task.durationIsWindow = false)
    (hm : task.pairMode = .required) {pid : UUID}
    (h : fitsIn task earliest cal free limit (p1 :: p2 :: rest) pid = true) :
    ∃ d, firstFit cal free [p1.id, p2.id] task.durationHours
      (limit + 1 - firstWorkingDay cal earliest) (firstWorkingDay cal earliest) = some d := by
  simp only [fitsIn, hw, hm] at h
  exact Option.isSome_iff_exists.mp h

theorem fitsIn_single (hw : task.durationIsWindow = false)
    (hm : task.pairMode = .required → allowed.length < 2) {pid : UUID}
    (h : fitsIn task earliest cal free limit allowed pid = true) :
    if task.isSplittable then (fillDays cal free pid (limit + 1 - firstWorkingDay cal earliest)
      (firstWorkingDay cal earliest) task.durationHours).2 ≤ 0
    else ∃ d, firstFit cal free [pid] task.durationHours
      (limit + 1 - firstWorkingDay cal earliest) (firstWorkingDay cal earliest) = some d := by
  simp only [fitsIn, hw, Bool.false_eq_true, if_false] at h
  split at h
  · rename_i hreq
    have hlen := hm hreq
    simp only [List.length_cons] at hlen
    omega
  · split at h
    · rename_i hs
      rw [if_pos hs]
      exact of_decide_eq_true h
    · rename_i hs
      rw [if_neg hs]
      exact Option.isSome_iff_exists.mp h

theorem fewestDays_window (hw : task.durationIsWindow = true) : fewestDays task allowed = windowSpan task := by
  rw [fewestDays, if_pos hw]

theorem fewestDays_pair (hw : task.durationIsWindow = false) (hm : task.pairMode = .required)
    (ha : 2 ≤ allowed.length) : fewestDays task allowed = 1 := by
  rw [fewestDays, if_neg (by simp [hw]), if_pos ⟨hm, ha⟩]

theorem fewestDays_whole (hw : task.durationIsWindow = false) (hs : task.isSplittable = false) :
    fewestDays task allowed = 1 := by
  simp [fewestDays, hw, hs]

theorem fewestDays_split (hw : task.durationIsWindow = false)
    (hm : task.pairMode = .required → allowed.length < 2) (hs : task.isSplittable = true)
    (hne : allowed ≠ []) : (∃ q ∈ allowed, fewestDays task allowed = daysAt task.durationHours q.capacityH) ∧
      ∀ q ∈ allowed, fewestDays task allowed ≤ daysAt task.durationHours q.capacityH := by
  have hpair : ¬ (task.pairMode = .required ∧ 2 ≤ allowed.length) := fun h => by
    have := hm h.1
    omega
  simp only [fewestDays, hw, Bool.false_eq_true, if_false, hpair, hs, if_true]
  cases hmin : (allowed.map fun q => daysAt task.durationHours q.capacityH).min? with
  | none => exact absurd (List.map_eq_nil_iff.mp (List.min?_eq_none_iff.mp hmin)) hne
  | some n =>
    obtain ⟨hmem, hle⟩ := List.min?_eq_some_iff.mp hmin
    obtain ⟨q, hq, he⟩ := List.mem_map.mp hmem
    exact ⟨⟨q, hq, he.symm⟩, fun r hr => hle _ (List.mem_map_of_mem hr)⟩

theorem allocateWindow_days (task : Task) (earliest : Date) (cal : WorkingCalendar) :
    (allocateWindow task earliest cal).startDate = workday cal earliest 0 ∧
      (allocateWindow task earliest cal).endDate = workday cal earliest (windowSpan task - 1) := by
  refine ⟨rfl, ?_⟩
  change nthWorkingDay cal (firstWorkingDay cal earliest) (windowSpan task) = _
  rw [nthWorkingDay_eq_workday, workday_first]

/-- A placement takes at least the fewest days. -/
theorem Placed.late (h : Placed task earliest cal free limit allowed person p)
    (hpos : 0 < task.durationHours)
    (hable : task.durationIsWindow = false → ∀ q ∈ allowed, 0 < q.capacityH)
    (hcap : task.durationIsWindow = false → ∀ q ∈ allowed, ∀ d, cal.isWorkingDay d = true →
      free q.id d ≤ q.capacityH)
    (hfits : fitsIn task earliest cal free limit allowed person.id = true) :
    workday cal earliest (fewestDays task allowed - 1) ≤ p.endDate := by
  have hstart := h.start_ge
  cases h with
  | window hw ha => rw [fewestDays_window hw, (allocateWindow_days task earliest cal).2]
  | pair hw hm ha => rw [fewestDays_pair hw hm (by simp [ha])]; exact hstart
  | single hw hm hwin =>
    obtain ⟨pre, post, rfl, hp, -, -⟩ := hwin
    by_cases hs : task.isSplittable = true
    · have hperson : person ∈ pre ++ person :: post := by simp
      have hdone := fitsIn_single hw hm hfits
      rw [if_pos hs] at hdone
      obtain ⟨-, hfew⟩ := fewestDays_split hw hm hs (List.ne_nil_of_mem hperson)
      obtain ⟨a, ha, hle⟩ := fillDays_late (hcap hw person hperson) (hable hw person hperson)
        (daysAt_spec (hable hw person hperson) hpos).1 hdone
      simp only [placementOf, hs, if_true, if_neg (not_lt.mpr hdone)] at hp
      rw [workday_first] at hle
      have hend := (p.within a ((Placement.spanning_ok hp).1 ▸ ha)).2
      have hdays := Nat.sub_le_sub_right (hfew person hperson) 1
      exact (workday_le_iff.mpr hdays).trans (hle.trans hend)
    · rw [fewestDays_whole hw (by simpa using hs)]
      exact hstart.trans p.start_le

theorem Placement.spanning_end {allocs : List DayAllocation} {p : Placement}
    (h : Placement.spanning allocs = .ok p) : ∃ a ∈ allocs, a.day = p.endDate := by
  unfold Placement.spanning at h
  split at h
  · rename_i s e hs he
    obtain rfl := Except.ok.inj h
    exact List.mem_map.mp (List.max?_eq_some_iff.mp he).1
  · cases h

/-- What a free candidate would get of a splittable task. -/
theorem placementOf_split (hs : task.isSplittable = true) (hpos : 0 < task.durationHours) {q : Person}
    (hable : 0 < q.capacityH) (hfree : ∀ d, cal.isWorkingDay d = true → free q.id d = q.capacityH)
    (hp : placementOf task q.id earliest cal free limit = .ok p) :
    p.startDate = workday cal earliest 0 ∧
      p.endDate ≤ workday cal earliest (daysAt task.durationHours q.capacityH - 1) := by
  have hstart : firstWorkingDay cal earliest ≤ p.startDate := placementOf_start hp
  have hfirst : cal.isWorkingDay (firstWorkingDay cal earliest) = true := firstWorkingDay_working earliest
  simp only [placementOf, hs, if_true] at hp
  obtain ⟨hallocs, -⟩ := Placement.spanning_ok hp
  obtain ⟨a, ha, hend⟩ := Placement.spanning_end hp
  constructor
  · refine le_antisymm ?_ hstart
    obtain ⟨b, hb, hday⟩ : ∃ b ∈ p.allocs, b.day = firstWorkingDay cal earliest := by
      rw [hallocs]
      rcases fillDays_first hable hfree hfirst hpos with hrest | ⟨b, hb, hday⟩
      · exact ⟨⟨q.id, _, _⟩, by rw [if_pos hrest]; exact List.mem_append_right _ List.mem_cons_self, rfl⟩
      · refine ⟨b, ?_, hday⟩
        split
        · exact List.mem_append_left _ hb
        · exact hb
    exact (p.within b hb).1.trans hday.le
  · have hdays := (daysAt_spec hable hpos).2
    have hpred : ((daysAt task.durationHours q.capacityH : Nat) : Int) =
        ((daysAt task.durationHours q.capacityH - 1 : Nat) : Int) + 1 := by
      have := daysAt_pos task.durationHours q.capacityH
      omega
    rw [hpred] at hdays
    rw [← hend, ← workday_first]
    split at ha
    · rcases List.mem_append.mp ha with ha | ha
      · exact fillDays_early hable hfree hdays ha
      · rw [List.mem_singleton.mp ha]
        exact le_workday _ _
    · exact fillDays_early hable hfree hdays ha

/-- A day that fits, when everyone is free, is the first one. -/
theorem firstFit_first (ps : List Person) {fuel : Nat} {d : Date}
    (hfree : ∀ q ∈ ps, ∀ d, cal.isWorkingDay d = true → free q.id d = q.capacityH)
    (h : firstFit cal free (ps.map Person.id) task.durationHours fuel (firstWorkingDay cal earliest) = some d) :
    d = firstWorkingDay cal earliest := by
  obtain ⟨⟨hworking, hroom⟩, hrange, hleast⟩ := firstFit_eq_some_iff.mp h
  refine le_antisymm (not_lt.mp fun hlt => ?_) hrange.1
  have hfirst : cal.isWorkingDay (firstWorkingDay cal earliest) = true := firstWorkingDay_working earliest
  obtain ⟨pid, hpid, hfull⟩ := hleast _ le_rfl hlt hfirst
  obtain ⟨q, hq, rfl⟩ := List.mem_map.mp hpid
  have hd := hroom q.id hpid
  rw [hfree q hq d hworking] at hd
  rw [hfree q hq _ hfirst] at hfull
  omega

/-- With everyone allowed free, a placement takes exactly the fewest days. -/
theorem Placed.prompt (h : Placed task earliest cal free limit allowed person p)
    (hpos : 0 < task.durationHours)
    (hable : task.durationIsWindow = false → ∀ q ∈ allowed, 0 < q.capacityH)
    (hfree : task.durationIsWindow = false → ∀ q ∈ allowed, ∀ d, cal.isWorkingDay d = true →
      free q.id d = q.capacityH)
    (hfits : fitsIn task earliest cal free limit allowed person.id = true) :
    p.startDate = workday cal earliest 0 ∧
      p.endDate = workday cal earliest (fewestDays task allowed - 1) := by
  have hlate := h.late hpos hable (fun hw q hq d hd => (hfree hw q hq d hd).le) hfits
  cases h with
  | window hw ha =>
    rw [fewestDays_window hw]
    exact allocateWindow_days task earliest cal
  | @pair p2 rest hw hm ha =>
    subst ha
    rw [fewestDays_pair hw hm (by simp)]
    obtain ⟨d, hd⟩ := fitsIn_pair hw hm hfits
    have hday : d = firstWorkingDay cal earliest := by
      refine firstFit_first [person, p2] (fun q hq => hfree hw q ?_) hd
      exact List.mem_append_left rest hq
    rw [hd, hday]
    exact ⟨rfl, rfl⟩
  | single hw hm hwin =>
    obtain ⟨pre, post, rfl, hp, hpre, hpost⟩ := hwin
    have hperson : person ∈ pre ++ person :: post := by simp
    by_cases hs : task.isSplittable = true
    · have hdone := fitsIn_single hw hm hfits
      have hwhole : ∀ {q : Person} {r : Placement}, q ∈ pre ++ person :: post →
          placementOf task q.id earliest cal free limit = .ok r → r.startDate = workday cal earliest 0 ∧
            r.endDate ≤ workday cal earliest (daysAt task.durationHours q.capacityH - 1) := fun hq hr =>
        placementOf_split hs hpos (hable hw _ hq) (hfree hw _ hq) hr
      obtain ⟨⟨best, hbest, hfew⟩, -⟩ := fewestDays_split hw hm hs (List.ne_nil_of_mem hperson)
      obtain ⟨hstart, hend⟩ := hwhole hperson hp
      refine ⟨hstart, le_antisymm ?_ hlate⟩
      rw [hfew]
      rcases List.mem_append.mp hbest with hb | hb
      · obtain ⟨r, hr, hbefore⟩ := hpre best hb
        obtain ⟨hrs, hre⟩ := hwhole hbest hr
        rcases hbefore with hlt | ⟨-, hlt⟩
        · exact absurd hlt (by rw [hstart, hrs]; exact lt_irrefl _)
        · exact hlt.le.trans hre
      · rcases List.mem_cons.mp hb with rfl | hb
        · exact hend
        · obtain ⟨r, hr, hnot⟩ := hpost best hb
          obtain ⟨hrs, hre⟩ := hwhole hbest hr
          exact le_trans (not_lt.mp fun hlt => hnot (Or.inr ⟨hrs.trans hstart.symm, hlt⟩)) hre
    · have hs' : task.isSplittable = false := by simpa using hs
      have hdone := fitsIn_single hw hm hfits
      rw [if_neg hs] at hdone
      obtain ⟨d, hd⟩ := hdone
      have hday : d = firstWorkingDay cal earliest :=
        firstFit_first [person] (fun q hq => hfree hw q (List.mem_singleton.mp hq ▸ hperson)) hd
      simp only [placementOf, hs', Bool.false_eq_true, if_false, hd, Option.getD_some, hday] at hp
      obtain rfl := Except.ok.inj hp
      rw [fewestDays_whole hw hs']
      exact ⟨rfl, rfl⟩

end Modes

end Planner
