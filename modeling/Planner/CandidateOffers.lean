import Planner.FilledDays
import Planner.PlacementErrors

/-! What a candidate of the race has to offer: whether the remaining capacity
holds the task, the days that would be booked, and the overload of a dump. -/

namespace Planner

open Filling

/-- The whole task can be done on working days from `start` until before `stop`
within what is free (on one day if it is not splittable). -/
def CanHold (task : Task) (personId : UUID) (cal : WorkingCalendar) (free : UUID → Date → Int)
    (start stop : Date) : Prop :=
  ∃ allocs : List DayAllocation,
    (∀ a ∈ allocs, a.personId = personId ∧ (start ≤ a.day ∧ a.day < stop) ∧ cal.isWorkingDay a.day = true ∧
      hoursOn allocs personId a.day ≤ free personId a.day) ∧
    (allocs.map DayAllocation.hours).sum = task.durationHours ∧
    (task.isSplittable = false → allocs.length = 1)

/-- A day to work on the task: there is room for some of it (for all of it, if it
is not splittable), and the days before do not hold the whole. -/
def WouldBook (task : Task) (personId : UUID) (cal : WorkingCalendar) (free : UUID → Date → Int)
    (start stop day : Date) : Prop :=
  (start ≤ day ∧ day < stop) ∧ cal.isWorkingDay day = true ∧
    (if task.isSplittable then 0 < free personId day else task.durationHours ≤ free personId day) ∧
    ¬ CanHold task personId cal free start day

/-- Allocations that take nobody over a ceiling he was within. -/
def StaysWithin (free : UUID → Date → Int) (allocs : List DayAllocation) : Prop :=
  ∀ p d, 0 ≤ free p d → hoursOn allocs p d ≤ free p d

section Capacity

variable {task : Task} {pid : UUID} {cal : WorkingCalendar} {free : UUID → Date → Int} {start stop : Date}

theorem canHold_split (hs : task.isSplittable = true) (hpos : 0 < task.durationHours) :
    CanHold task pid cal free start stop ↔
      task.durationHours ≤ room (free pid) (workDays cal start (stop - start)) := by
  constructor
  · rintro ⟨allocs, hallocs, hsum, -⟩
    have hmine : ∀ d, ((allocs.map fun a => (a.day, a.hours)).filter fun f => f.1 = d).map Prod.snd =
        (allocs.filter fun a => a.personId = pid ∧ a.day = d).map DayAllocation.hours := by
      intro d
      rw [List.filter_map, List.map_map]
      refine congrArg (List.map DayAllocation.hours) (List.filter_congr fun a ha => ?_)
      simp [(hallocs a ha).1]
    have htaken : ((allocs.map fun a => (a.day, a.hours)).map Prod.snd).sum = task.durationHours := by
      rw [List.map_map]
      exact hsum
    rw [← htaken]
    apply sum_le_room
    · intro e he
      obtain ⟨a, ha, rfl⟩ := List.mem_map.mp he
      obtain ⟨-, ⟨hle, hlt⟩, hd, -⟩ := hallocs a ha
      exact mem_workDays.mpr ⟨⟨hle, by lia⟩, hd⟩
    · intro e he
      obtain ⟨a, ha, rfl⟩ := List.mem_map.mp he
      rw [hmine]
      exact (hallocs a ha).2.2.2
  · intro hroom
    have hrest := fill_rest (free pid) (workDays cal start (stop - start)) hpos.le
    have hsum := sum_fill (free pid) (workDays cal start (stop - start)) task.durationHours
    refine ⟨bookings pid (fill (free pid) (workDays cal start (stop - start)) task.durationHours).1, ?_, ?_, ?_⟩
    · intro a ha
      obtain ⟨e, he, rfl⟩ := List.mem_map.mp ha
      obtain ⟨⟨hle, hlt⟩, hd⟩ := mem_workDays.mp ((fill_sublist _ _).subset (List.mem_map_of_mem he))
      refine ⟨rfl, ⟨hle, by lia⟩, hd, ?_⟩
      rw [hoursOn_bookings (nodup_fill_days cal _ _ _) he]
      exact (mem_fill he).2
    · rw [bookings, List.map_map]
      change ((fill (free pid) (workDays cal start (stop - start)) task.durationHours).1.map Prod.snd).sum = _
      omega
    · intro hwhole
      rw [hs] at hwhole
      cases hwhole

theorem canHold_whole (hs : task.isSplittable = false) : CanHold task pid cal free start stop ↔
    ∃ d, (start ≤ d ∧ d < stop) ∧ cal.isWorkingDay d = true ∧ task.durationHours ≤ free pid d := by
  constructor
  · rintro ⟨allocs, hallocs, hsum, hone⟩
    obtain ⟨a, rfl⟩ := List.length_eq_one_iff.mp (hone hs)
    obtain ⟨hid, hrange, hd, hroom⟩ := hallocs a List.mem_cons_self
    refine ⟨a.day, hrange, hd, ?_⟩
    have hours : a.hours = task.durationHours := by simpa using hsum
    rw [hoursOn_cons, if_pos ⟨hid, rfl⟩, hoursOn_nil] at hroom
    omega
  · rintro ⟨d, hrange, hd, hroom⟩
    refine ⟨[⟨pid, d, task.durationHours⟩], ?_, by simp, fun _ => rfl⟩
    intro a ha
    rw [List.mem_singleton.mp ha]
    refine ⟨rfl, hrange, hd, ?_⟩
    rw [hoursOn_cons, if_pos ⟨rfl, rfl⟩, hoursOn_nil, add_zero]
    exact hroom

theorem wouldBook_split (hs : task.isSplittable = true) (hpos : 0 < task.durationHours) {d : Date} :
    WouldBook task pid cal free start stop d ↔
      d ∈ (fill (free pid) (workDays cal start (stop - start)) task.durationHours).1.map Prod.fst := by
  have hbefore : CanHold task pid cal free start d ↔
      task.durationHours ≤ room (free pid) (workDays cal start (d - start)) := canHold_split hs hpos
  rw [exists_mem_fill_iff, WouldBook, if_pos hs, hbefore, not_le]
  constructor
  · rintro ⟨⟨hle, hlt⟩, hd, hfree, hroom⟩
    have hmem : d ∈ workDays cal start (stop - start) := mem_workDays.mpr ⟨⟨hle, by lia⟩, hd⟩
    exact ⟨_, _, workDays_split hmem, hfree, hroom⟩
  · rintro ⟨pre, post, he, hfree, hroom⟩
    have hmem : d ∈ workDays cal start (stop - start) := by simp [he]
    obtain ⟨⟨hle, hlt⟩, hd⟩ := mem_workDays.mp hmem
    exact ⟨⟨hle, by lia⟩, hd, hfree, workDays_pre he ▸ hroom⟩

theorem wouldBook_whole (hs : task.isSplittable = false) {d : Date} :
    WouldBook task pid cal free start stop d ↔
      firstFit cal free [pid] task.durationHours (stop - start) start = some d := by
  have hwhole : ¬ task.isSplittable = true := by simp [hs]
  rw [firstFit_eq_some_iff, WouldBook, if_neg hwhole, canHold_whole hs]
  simp only [List.mem_singleton, forall_eq, exists_eq_left]
  constructor
  · rintro ⟨⟨hle, hlt⟩, hd, hroom, hnone⟩
    exact ⟨⟨hd, hroom⟩, ⟨hle, by lia⟩, fun e hse hed he => not_le.mp fun hroom' => hnone ⟨e, ⟨hse, hed⟩, he, hroom'⟩⟩
  · rintro ⟨⟨hd, hroom⟩, ⟨hle, hlt⟩, hleast⟩
    refine ⟨⟨hle, by lia⟩, hd, hroom, ?_⟩
    rintro ⟨e, ⟨hse, hed⟩, he, hroom'⟩
    exact absurd hroom' (not_le.mpr (hleast e hse hed he))

end Capacity

/-- The dates and the load of a candidate's placement, by capacity alone. -/
structure Offer (task : Task) (pid : UUID) (cal : WorkingCalendar) (free : UUID → Date → Int)
    (start stop : Date) (p : Placement) : Prop where
  from_start : start ≤ p.startDate
  covers : ∀ d, WouldBook task pid cal free start stop d → p.startDate ≤ d ∧ d ≤ p.endDate
  holds : CanHold task pid cal free start stop →
    WouldBook task pid cal free start stop p.startDate ∧ WouldBook task pid cal free start stop p.endDate
  dumps : ¬ CanHold task pid cal free start stop →
    p.startDate = start ∧ (p.endDate = start ∨ WouldBook task pid cal free start stop p.endDate)
  within_iff : start < stop →
    (StaysWithin free p.allocs ↔ CanHold task pid cal free start stop ∨ free pid start < 0)

section Offers

variable {task : Task} {pid : UUID} {earliest : Date} {cal : WorkingCalendar} {free : UUID → Date → Int}
  {limit : Date} {p : Placement}

theorem positive_of_split (hs : task.isSplittable = true)
    (h : placementOf task pid earliest cal free limit = .ok p) : 0 < task.durationHours :=
  placementOf_isOk.mp ⟨p, h⟩ hs

/-- The bookings of a split placement, and the dump of what is left over. -/
theorem placementOf_split_ok (hs : task.isSplittable = true)
    (h : placementOf task pid earliest cal free limit = .ok p) {filled : List (Date × Int) × Int}
    (hfilled : filled = fill (free pid)
      (workDays cal (firstWorkingDay cal earliest) (limit + 1 - firstWorkingDay cal earliest)) task.durationHours) :
    p.allocs = (if 0 < filled.2 then bookings pid filled.1 ++ [⟨pid, firstWorkingDay cal earliest, filled.2⟩]
      else bookings pid filled.1) ∧
      (∃ a ∈ p.allocs, a.day = p.startDate) ∧ ∃ a ∈ p.allocs, a.day = p.endDate := by
  simp only [placementOf, hs, if_true, fillDays_eq, ← hfilled] at h
  obtain ⟨hallocs, hfirst⟩ := Placement.spanning_ok h
  have hlast := Placement.spanning_end h
  rw [← hallocs] at hfirst hlast
  exact ⟨hallocs, hfirst, hlast⟩

theorem staysWithin_fill (hours : Int) (day : Date) (fuel : Nat) :
    StaysWithin free (bookings pid (fill (free pid) (workDays cal day fuel) hours).1) := by
  intro q d hq
  by_cases he : q = pid
  · rw [he] at hq ⊢
    exact (hoursOn_fill_le d).trans (max_eq_right hq).le
  · rw [hoursOn_bookings_other he]
    exact hq

/-- A dump exceeds the ceiling of its day, unless the day was past it before. -/
theorem staysWithin_dump_iff {hours : Int} {day : Date} {fuel : Nat} (hday : day ∈ workDays cal day fuel)
    (hrest : 0 < (fill (free pid) (workDays cal day fuel) hours).2) :
    StaysWithin free (bookings pid (fill (free pid) (workDays cal day fuel) hours).1 ++
      [⟨pid, day, (fill (free pid) (workDays cal day fuel) hours).2⟩]) ↔ free pid day < 0 := by
  constructor
  · intro hwithin
    refine not_le.mp fun hfree => ?_
    have hh := hwithin pid day hfree
    rw [hoursOn_append, hoursOn_fill_full hrest hday, max_eq_right hfree, hoursOn_cons, if_pos ⟨rfl, rfl⟩,
      hoursOn_nil, add_zero] at hh
    exact absurd hh (not_le.mpr (lt_add_of_pos_right _ hrest))
  · intro hover q d hq
    have hne : ¬ (pid = q ∧ day = d) := by
      rintro ⟨rfl, rfl⟩
      omega
    rw [hoursOn_append, hoursOn_cons, if_neg hne, hoursOn_nil, zero_add, add_zero]
    exact staysWithin_fill hours day fuel q d hq

theorem offer_split (hs : task.isSplittable = true)
    (h : placementOf task pid earliest cal free limit = .ok p) :
    Offer task pid cal free (firstWorkingDay cal earliest) (limit + 1) p := by
  have hpos := positive_of_split hs h
  have hstart := placementOf_start h
  have hfirst : cal.isWorkingDay (firstWorkingDay cal earliest) = true := firstWorkingDay_working earliest
  obtain ⟨filled, hfilled⟩ : ∃ filled, filled = fill (free pid) (workDays cal (firstWorkingDay cal earliest)
    (limit + 1 - firstWorkingDay cal earliest)) task.durationHours := ⟨_, rfl⟩
  have hbooks : ∀ d, WouldBook task pid cal free (firstWorkingDay cal earliest) (limit + 1) d ↔
      d ∈ filled.1.map Prod.fst := fun d => hfilled ▸ wouldBook_split hs hpos
  have hhold : CanHold task pid cal free (firstWorkingDay cal earliest) (limit + 1) ↔ ¬ 0 < filled.2 := by
    rw [canHold_split hs hpos, hfilled, fill_rest _ _ hpos.le]
    omega
  obtain ⟨hallocs, ⟨b, hb, hbday⟩, ⟨c, hc, hcday⟩⟩ := placementOf_split_ok hs h hfilled
  have hall : ∀ d ∈ filled.1.map Prod.fst, ∃ a ∈ p.allocs, a.day = d := by
    intro d hd
    obtain ⟨a, ha, hday⟩ := @exists_mem_bookings pid filled.1 d hd
    refine ⟨a, ?_, hday⟩
    rw [hallocs]
    split
    · exact List.mem_append_left _ ha
    · exact ha
  have hdays : ∀ a ∈ p.allocs, a.day ∈ filled.1.map Prod.fst ∨
      0 < filled.2 ∧ a.day = firstWorkingDay cal earliest := by
    intro a ha
    rw [hallocs] at ha
    split at ha
    · rename_i hrest
      rcases List.mem_append.mp ha with ha | ha
      · exact Or.inl (day_of_mem_bookings ha)
      · rw [List.mem_singleton.mp ha]
        exact Or.inr ⟨hrest, rfl⟩
    · exact Or.inl (day_of_mem_bookings ha)
  refine ⟨hstart, fun d hd => ?_, fun hcan => ?_, fun hcan => ?_, fun hrange => ?_⟩
  · obtain ⟨a, ha, rfl⟩ := hall d ((hbooks d).mp hd)
    exact p.within a ha
  · have hdone := hhold.mp hcan
    refine ⟨(hbooks _).mpr (hbday ▸ (hdays b hb).resolve_right fun hd => hdone hd.1),
      (hbooks _).mpr (hcday ▸ (hdays c hc).resolve_right fun hd => hdone hd.1)⟩
  · have hrest : 0 < filled.2 := not_not.mp fun hdone => hcan (hhold.mpr hdone)
    rw [if_pos hrest] at hallocs
    refine ⟨le_antisymm ?_ hstart, ?_⟩
    · have hdump : (⟨pid, firstWorkingDay cal earliest, filled.2⟩ : DayAllocation) ∈ p.allocs := by simp [hallocs]
      exact (p.within _ hdump).1
    · rcases hdays c hc with hd | ⟨-, hd⟩
      · exact Or.inr ((hbooks _).mpr (hcday ▸ hd))
      · exact Or.inl (hcday ▸ hd)
  · rw [hhold, hallocs]
    by_cases hrest : 0 < filled.2
    · have hmem : firstWorkingDay cal earliest ∈ workDays cal (firstWorkingDay cal earliest)
          (limit + 1 - firstWorkingDay cal earliest) := mem_workDays.mpr ⟨⟨le_rfl, by lia⟩, hfirst⟩
      rw [if_pos hrest, hfilled, staysWithin_dump_iff hmem (hfilled ▸ hrest)]
      simp [hfilled ▸ hrest]
    · rw [if_neg hrest, hfilled]
      exact ⟨fun _ => Or.inl (hfilled ▸ hrest), fun _ => staysWithin_fill _ _ _⟩

theorem placementOf_whole (hs : task.isSplittable = false) :
    placementOf task pid earliest cal free limit = .ok (.onDay [pid] ((firstFit cal free [pid] task.durationHours
      (limit + 1 - firstWorkingDay cal earliest) (firstWorkingDay cal earliest)).getD
        (firstWorkingDay cal earliest)) task.durationHours) := by
  simp only [placementOf, hs, Bool.false_eq_true, if_false]

/-- On one day the hours fit into what is free, or the day is overbooked already. -/
theorem staysWithin_onDay (day : Date) (hours : Int) : StaysWithin free (Placement.onDay [pid] day hours).allocs ↔
    (0 ≤ free pid day → hours ≤ free pid day) := by
  have hbooked : ∀ q e, hoursOn (Placement.onDay [pid] day hours).allocs q e = if pid = q ∧ day = e then hours else 0 := by
    intro q e
    change hoursOn [⟨pid, day, hours⟩] q e = _
    rw [hoursOn_cons, hoursOn_nil, add_zero]
  constructor
  · intro hstays hfree
    have hh := hstays pid day hfree
    rwa [hbooked, if_pos ⟨rfl, rfl⟩] at hh
  · intro hroom q e hfree
    rw [hbooked]
    split
    · rename_i he
      obtain ⟨rfl, rfl⟩ := he
      exact hroom hfree
    · exact hfree

theorem offer_whole (hs : task.isSplittable = false)
    (h : placementOf task pid earliest cal free limit = .ok p) :
    Offer task pid cal free (firstWorkingDay cal earliest) (limit + 1) p := by
  have hstart := placementOf_start h
  have hfirst : cal.isWorkingDay (firstWorkingDay cal earliest) = true := firstWorkingDay_working earliest
  have hbooks : ∀ d, WouldBook task pid cal free (firstWorkingDay cal earliest) (limit + 1) d ↔
      firstFit cal free [pid] task.durationHours (limit + 1 - firstWorkingDay cal earliest)
        (firstWorkingDay cal earliest) = some d := fun d => wouldBook_whole hs
  rw [placementOf_whole hs] at h
  obtain rfl := Except.ok.inj h
  cases hfit : firstFit cal free [pid] task.durationHours (limit + 1 - firstWorkingDay cal earliest)
      (firstWorkingDay cal earliest) with
  | some d =>
    obtain ⟨⟨hd, hroom⟩, ⟨hle, hlt⟩, -⟩ := firstFit_eq_some_iff.mp hfit
    have hroom' := hroom pid List.mem_cons_self
    have hcan : CanHold task pid cal free (firstWorkingDay cal earliest) (limit + 1) :=
      (canHold_whole hs).mpr ⟨d, ⟨hle, by lia⟩, hd, hroom'⟩
    refine ⟨hle, fun e he => ?_, fun _ => ⟨(hbooks _).mpr hfit, (hbooks _).mpr hfit⟩,
      fun hno => absurd hcan hno, fun _ => ?_⟩
    · rw [hbooks, hfit] at he
      obtain rfl := Option.some.inj he
      exact ⟨le_rfl, le_rfl⟩
    · refine iff_of_true ((staysWithin_onDay _ _).mpr fun _ => ?_) (Or.inl hcan)
      exact hroom'
  | none =>
    have hnone := firstFit_eq_none_iff.mp hfit
    have hno : ¬ CanHold task pid cal free (firstWorkingDay cal earliest) (limit + 1) := by
      rw [canHold_whole hs]
      rintro ⟨d, ⟨hle, hlt⟩, hd, hroom⟩
      obtain ⟨q, hq, hfull⟩ := hnone d hle (by lia) hd
      rw [List.mem_singleton.mp hq] at hfull
      omega
    refine ⟨le_rfl, fun e he => ?_, fun hcan => absurd hcan hno, fun _ => ⟨rfl, Or.inl rfl⟩, fun hrange => ?_⟩
    · rw [hbooks, hfit] at he
      cases he
    · obtain ⟨q, hq, hfull⟩ := hnone _ le_rfl (by lia) hfirst
      rw [List.mem_singleton.mp hq] at hfull
      rw [Option.getD_none, staysWithin_onDay, or_iff_right hno]
      omega

/-- Every placement the race compares is described by its offer. -/
theorem placementOf_offer (h : placementOf task pid earliest cal free limit = .ok p) :
    Offer task pid cal free (firstWorkingDay cal earliest) (limit + 1) p := by
  cases hs : task.isSplittable with
  | true => exact offer_split hs h
  | false => exact offer_whole hs h

end Offers

end Planner
