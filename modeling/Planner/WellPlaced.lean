import Mathlib.Data.Rat.Floor
import Planner.CandidateOffers
import Planner.PlacementTurns
import Planner.TurnLoad

/-! Hours are conserved and well placed, in every placement mode and with every
fallback: what is booked is the duration, on working days within the dates. -/

namespace Planner

open Filling

section Span

variable {cal : WorkingCalendar}

theorem workDays_append (day : Date) (m n : Nat) :
    workDays cal day (m + n) = workDays cal day m ++ workDays cal (day + m) n := by
  rw [workDays, ← List.range'_append_1, List.filter_append]
  rfl

theorem workDays_off {day : Date} {fuel : Nat} (h : ∀ d, day ≤ d → d < day + fuel → cal.isWorkingDay d = false) :
    workDays cal day fuel = [] := by
  refine List.filter_eq_nil_iff.mpr fun d hd => ?_
  obtain ⟨hle, hlt⟩ := List.mem_range'_1.mp hd
  simp [h d hle hlt]

theorem length_workDays_next {first last : Date} (hle : first ≤ last) :
    (workDays cal first (cal.nextWorkingDay last + 1 - first)).length =
      (workDays cal first (last + 1 - first)).length + 1 := by
  have hlt := cal.lt_next last
  have hfuel : cal.nextWorkingDay last + 1 - first =
      (last + 1 - first) + ((cal.nextWorkingDay last - (last + 1)) + 1) := by lia
  have hmid : first + (last + 1 - first) = last + 1 := by lia
  have hday : last + 1 + (cal.nextWorkingDay last - (last + 1)) = cal.nextWorkingDay last := by lia
  have hgap : workDays cal (last + 1) (cal.nextWorkingDay last - (last + 1)) = [] := by
    refine workDays_off fun d hd hdl => Bool.eq_false_iff.mpr fun hw => ?_
    have hnext := cal.next_least last d (by lia) hw
    lia
  have hone : workDays cal (cal.nextWorkingDay last) 1 = [cal.nextWorkingDay last] := by
    rw [workDays, List.range'_one, List.filter_cons_of_pos (cal.next_working last), List.filter_nil]
  rw [hfuel, workDays_append, hmid, workDays_append, hday, hgap, hone, List.nil_append, List.length_append,
    List.length_singleton]

theorem length_workDays (start : Date) (n : Nat) :
    (workDays cal (workday cal start 0) (workday cal start n + 1 - workday cal start 0)).length = n + 1 := by
  induction n with
  | zero =>
    have hone : workday cal start 0 + 1 - workday cal start 0 = 1 :=
      Nat.add_sub_cancel_left _ _
    rw [hone, workDays, List.range'_one, List.filter_cons_of_pos (workday_working start 0)]
    rfl
  | succ n ih =>
    rw [workday_succ, length_workDays_next (workday_le_iff.mpr (Nat.zero_le n)), ih]

theorem windowSpan_eq (task : Task) : ((windowSpan task : Nat) : Int) = max 1 ⌈(task.durationHours : ℚ) / 8⌉ := by
  have hceil : ⌈(task.durationHours : ℚ) / 8⌉ = -(-task.durationHours / 8) := by
    have h := Rat.ceil_intCast_div_natCast task.durationHours 8
    push_cast at h
    exact h
  have hspan : (windowSpan task : Nat) = (max 1 (-(-task.durationHours / dayHours))).toNat := rfl
  rw [hceil, hspan, dayHours]
  omega

end Span

/-- A required pair: placed together when two candidates are there. -/
def Task.Paired (task : Task) (allowed : List Person) : Prop :=
  task.durationIsWindow = false ∧ task.pairMode = .required ∧ 2 ≤ allowed.length

/-- One person, on one day or split over several. -/
def Task.Alone (task : Task) (allowed : List Person) : Prop :=
  task.durationIsWindow = false ∧ ¬ (task.pairMode = .required ∧ 2 ≤ allowed.length)

/-- Where the hours of `a` lie, given what was free before its turn. -/
structure WellPlaced (cal : WorkingCalendar) (task : Task) (allowed : List Person) (free : UUID → Date → Int)
    (a : Assignment) : Prop where
  start_working : cal.isWorkingDay a.startDate = true
  end_working : cal.isWorkingDay a.endDate = true
  days : ∀ al ∈ a.allocations, cal.isWorkingDay al.day = true ∧ a.startDate ≤ al.day ∧ al.day ≤ a.endDate
  window : task.durationIsWindow = true → a.allocations = [] ∧
    ((workDays cal a.startDate (a.endDate + 1 - a.startDate)).length : Int) = max 1 ⌈(task.durationHours : ℚ) / 8⌉
  pair : task.Paired allowed → ∀ p1 p2 rest, allowed = p1 :: p2 :: rest →
    ∃ day, a.allocations = [⟨p1.id, day, task.durationHours⟩, ⟨p2.id, day, task.durationHours⟩]
  hours : task.Alone allowed → (∀ al ∈ a.allocations, 0 < al.hours ∧ al.personId = a.personId) ∧
    (a.allocations.map DayAllocation.hours).sum = task.durationHours
  split : task.Alone allowed → task.isSplittable = true → ∃ booked extra, a.allocations = booked ++ extra ∧
    (∀ al ∈ booked, hoursOn booked a.personId al.day ≤ free a.personId al.day) ∧
    extra.length ≤ 1 ∧ ∀ al ∈ extra, al.day = a.startDate

section Modes

variable {task : Task} {pid : UUID} {earliest : Date} {cal : WorkingCalendar} {free : UUID → Date → Int}
  {limit : Date} {allowed : List Person} {person : Person} {p : Placement}

/-- The hours of a split placement: what the days hold, and one dump at the most. -/
theorem placementOf_split_hours (hs : task.isSplittable = true)
    (h : placementOf task pid earliest cal free limit = .ok p) :
    (p.allocs.map DayAllocation.hours).sum = task.durationHours ∧
      ∃ booked extra, p.allocs = booked ++ extra ∧ (∀ al ∈ booked, hoursOn booked pid al.day ≤ free pid al.day) ∧
        extra.length ≤ 1 ∧ ∀ al ∈ extra, al.day = p.startDate := by
  have hpos := positive_of_split hs h
  obtain ⟨filled, hfilled⟩ : ∃ filled, filled = fill (free pid) (workDays cal (firstWorkingDay cal earliest)
    (limit + 1 - firstWorkingDay cal earliest)) task.durationHours := ⟨_, rfl⟩
  obtain ⟨hallocs, -, -⟩ := placementOf_split_ok hs h hfilled
  have hsum : (filled.1.map Prod.snd).sum + filled.2 = task.durationHours := hfilled ▸ sum_fill _ _ _
  have hleft : 0 ≤ filled.2 := by
    rw [hfilled, fill_rest _ _ hpos.le]
    exact le_max_left _ _
  have hroom : ∀ al ∈ bookings pid filled.1, hoursOn (bookings pid filled.1) pid al.day ≤ free pid al.day := by
    rw [hfilled]
    exact fun al hal => hoursOn_fill_room hal
  split at hallocs
  · have hdump : firstWorkingDay cal earliest = p.startDate := by
      have hmem : (⟨pid, firstWorkingDay cal earliest, filled.2⟩ : DayAllocation) ∈ p.allocs := by simp [hallocs]
      exact le_antisymm (placementOf_start h) (p.within _ hmem).1
    refine ⟨?_, bookings pid filled.1, _, hallocs, hroom, le_rfl, fun al hal => ?_⟩
    · rw [hallocs, List.map_append, List.sum_append, sum_bookings, ← hsum]
      simp
    · rw [List.mem_singleton.mp hal]
      exact hdump
  · rename_i hrest
    refine ⟨?_, bookings pid filled.1, [], by rw [hallocs, List.append_nil], hroom, Nat.zero_le _, by simp⟩
    rw [hallocs, sum_bookings, ← hsum]
    omega

theorem placementOf_ends_working (h : placementOf task pid earliest cal free limit = .ok p) :
    cal.isWorkingDay p.startDate = true ∧ cal.isWorkingDay p.endDate = true := by
  cases hs : task.isSplittable with
  | true =>
    obtain ⟨-, ⟨b, hb, hbday⟩, ⟨c, hc, hcday⟩⟩ := placementOf_split_ok hs h rfl
    rw [← hbday, ← hcday]
    exact ⟨(placementOf_allocs h b hb).1, (placementOf_allocs h c hc).1⟩
  | false =>
    rw [placementOf_whole hs] at h
    obtain rfl := Except.ok.inj h
    exact ⟨firstFit_working, firstFit_working⟩

theorem placementOf_sum (h : placementOf task pid earliest cal free limit = .ok p) :
    (p.allocs.map DayAllocation.hours).sum = task.durationHours := by
  cases hs : task.isSplittable with
  | true => exact (placementOf_split_hours hs h).1
  | false =>
    rw [placementOf_whole hs] at h
    obtain rfl := Except.ok.inj h
    simp [Placement.onDay]

theorem Placed.ends_working (h : Placed task earliest cal free limit allowed person p) :
    cal.isWorkingDay p.startDate = true ∧ cal.isWorkingDay p.endDate = true := by
  cases h with
  | window => exact ⟨firstWorkingDay_working _, nthWorkingDay_working _ _⟩
  | pair => exact ⟨firstFit_working, firstFit_working⟩
  | single _ _ hwin =>
    obtain ⟨_, _, _, hp, _⟩ := hwin
    exact placementOf_ends_working hp

theorem Placed.wellPlaced (h : Placed task earliest cal free limit allowed person p) (hpos : 0 < task.durationHours)
    (tid : UUID) : WellPlaced cal task allowed free (p.toAssignment tid person) := by
  obtain ⟨hstart, hend⟩ := h.ends_working
  have hdays : ∀ al ∈ p.allocs, cal.isWorkingDay al.day = true ∧ p.startDate ≤ al.day ∧ al.day ≤ p.endDate :=
    fun al hal => ⟨(h.allocs_spec al hal).1, p.within al hal⟩
  cases h with
  | window hw ha =>
    refine ⟨hstart, hend, hdays, fun _ => ⟨rfl, ?_⟩, ?_, ?_, ?_⟩
    · obtain ⟨hfirst, hlast⟩ := allocateWindow_days task earliest cal
      change ((workDays cal (allocateWindow task earliest cal).startDate
        ((allocateWindow task earliest cal).endDate + 1 - (allocateWindow task earliest cal).startDate)).length : Int) = _
      rw [hfirst, hlast, length_workDays, ← windowSpan_eq]
      have hspan := (windowSpan task).pos
      omega
    · intro hpair
      rw [hpair.1] at hw
      cases hw
    · intro halone
      rw [halone.1] at hw
      cases hw
    · intro halone
      rw [halone.1] at hw
      cases hw
  | @pair p2 rest hw hm ha =>
    have htwo : task.pairMode = .required ∧ 2 ≤ allowed.length := ⟨hm, by simp [ha]⟩
    refine ⟨hstart, hend, hdays, ?_, ?_, fun halone => absurd htwo halone.2, fun halone => absurd htwo halone.2⟩
    · intro hw'
      rw [hw'] at hw
      cases hw
    · intro _ q1 q2 others he
      rw [ha] at he
      obtain ⟨hq1, he⟩ := List.cons.inj he
      obtain ⟨hq2, -⟩ := List.cons.inj he
      rw [← hq1, ← hq2]
      exact ⟨_, rfl⟩
  | single hw hm hwin =>
    obtain ⟨_, _, _, hp, _⟩ := hwin
    refine ⟨hstart, hend, hdays, ?_, ?_, fun _ => ⟨placementOf_hours hpos hp, placementOf_sum hp⟩,
      fun _ hs => (placementOf_split_hours hs hp).2⟩
    · intro hw'
      rw [hw'] at hw
      cases hw
    · intro hpair
      have hlen := hm hpair.2.1
      have htwo := hpair.2.2
      omega

end Modes

/-- Every movable task with hours has a turn, unless it shares its id, and every
turn places its task well. -/
theorem plan_well_placed (s : GreedySolver) (req : PlanRequest) (res : PlanResult) (h : s.plan req = .ok res)
    (t : Task) (ht : t ∈ req.tasks) (hp : t.pinned? = none) (hpos : 0 < t.durationHours) :
    ((∀ u ∈ req.tasks, u.id = t.id → u = t) → ∃ before after, PlacementTurn s req res t before after) ∧
      ∀ before after, PlacementTurn s req res t before after → ∃ a ∈ res.assignments, a.taskId = t.id ∧
        WellPlaced s.calendar t (allowedPeople req t) before.idx.free a := by
  refine ⟨exists_placementTurn h ht hp, fun before after hturn => ?_⟩
  obtain ⟨person, p, idx, hpl, -, rfl⟩ := hturn.placed
  have hfiled := hturn.filed (OrdDict.get?_insert_self before.assignments t.id (p.toAssignment t.id person))
  exact ⟨_, hfiled, rfl, hpl.wellPlaced hpos t.id⟩

theorem plan_well_placed_review : ∃ res, GreedySolver.onWeekdays.plan reviewRequest = .ok res ∧
    ∀ t ∈ reviewRequest.tasks,
      ((∀ u ∈ reviewRequest.tasks, u.id = t.id → u = t) →
        ∃ before after, PlacementTurn GreedySolver.onWeekdays reviewRequest res t before after) ∧
      ∀ before after, PlacementTurn GreedySolver.onWeekdays reviewRequest res t before after →
        ∃ a ∈ res.assignments, a.taskId = t.id ∧ WellPlaced GreedySolver.onWeekdays.calendar t
          (allowedPeople reviewRequest t) before.idx.free a := by
  have hmovable : ∀ t ∈ reviewRequest.tasks, t.pinned? = none ∧ 0 < t.durationHours := by decide
  exact ⟨_, rfl, fun t ht => plan_well_placed GreedySolver.onWeekdays reviewRequest _ rfl t ht (hmovable t ht).1
    (hmovable t ht).2⟩

end Planner
