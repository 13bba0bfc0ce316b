import Planner.Lib.Filling
import Planner.PlacementDays

/-! The day-by-day loop of a split placement as greedy filling: the working days
are the bins, and each holds what the person has free on it. -/

namespace Planner

open Filling

/-- The working days among the `fuel` days from `day` on. -/
def workDays (cal : WorkingCalendar) (day : Date) (fuel : Nat) : List Date :=
  (List.range' day fuel).filter cal.isWorkingDay

section Days

variable {cal : WorkingCalendar} {day d : Date} {fuel : Nat}

theorem mem_workDays : d ∈ workDays cal day fuel ↔ (day ≤ d ∧ d < day + fuel) ∧ cal.isWorkingDay d = true := by
  rw [workDays, List.mem_filter, List.mem_range'_1]

theorem nodup_workDays (cal : WorkingCalendar) (day : Date) (fuel : Nat) : (workDays cal day fuel).Nodup :=
  (List.nodup_range' (h := by omega)).filter _

theorem workDays_split (h : d ∈ workDays cal day fuel) : workDays cal day fuel =
    workDays cal day (d - day) ++ d :: workDays cal (d + 1) (day + fuel - (d + 1)) := by
  obtain ⟨⟨hle, hlt⟩, hd⟩ := mem_workDays.mp h
  have hfuel : fuel = (d - day) + ((day + fuel - (d + 1)) + 1) := by lia
  have hnext : day + (d - day) = d := Nat.add_sub_cancel' hle
  unfold workDays
  rw [hfuel, ← List.range'_append_1, List.filter_append, hnext, List.range'_succ, List.filter_cons_of_pos hd,
    ← hfuel]

theorem workDays_pre {pre post : List Date} (h : workDays cal day fuel = pre ++ d :: post) :
    pre = workDays cal day (d - day) := by
  have hmem : d ∈ workDays cal day fuel := by simp [h]
  have hsplit := workDays_split hmem
  have hnodup := nodup_workDays cal day fuel
  have hpre : d ∉ workDays cal day (d - day) := by
    intro hd
    have hlt := (mem_workDays.mp hd).1.2
    have hle := (mem_workDays.mp hmem).1.1
    lia
  have hpost : d ∉ workDays cal (d + 1) (day + fuel - (d + 1)) := by
    intro hd
    have hle := (mem_workDays.mp hd).1.1
    lia
  rw [hsplit] at h
  exact ((List.append_cons_inj_of_notMem hpre hpost).mp h).1.symm

end Days

section Booked

variable {cal : WorkingCalendar} {free : UUID → Date → Int} {pid : UUID} {fuel : Nat} {day : Date} {hours : Int}

/-- What a person books, day by day. -/
def bookings (pid : UUID) (taken : List (Date × Int)) : List DayAllocation :=
  taken.map fun e => ⟨pid, e.1, e.2⟩

theorem fillDays_eq (cal : WorkingCalendar) (free : UUID → Date → Int) (pid : UUID) (fuel : Nat) (day : Date)
    (hours : Int) : fillDays cal free pid fuel day hours =
      (bookings pid (fill (free pid) (workDays cal day fuel) hours).1,
        (fill (free pid) (workDays cal day fuel) hours).2) := by
  induction fuel generalizing day hours with
  | zero => rfl
  | succ fuel ih =>
    simp only [workDays] at ih ⊢
    rw [List.range'_succ, fillDays]
    by_cases h0 : hours ≤ 0
    · rw [if_pos h0, fill_of_nonpos _ h0]
      rfl
    · have hpos : 0 < hours := not_le.mp h0
      rw [if_neg h0]
      by_cases hd : cal.isWorkingDay day = true
      · rw [List.filter_cons_of_pos hd]
        simp only [fill, hd, hpos, true_and]
        split
        · simp only [ih]
          rfl
        · exact ih _ _
      · rw [List.filter_cons_of_neg hd]
        simp only [hd, false_and, if_false, Bool.false_eq_true]
        exact ih _ _

theorem hoursOn_bookings {taken : List (Date × Int)} (hnodup : (taken.map Prod.fst).Nodup) {e : Date × Int}
    (he : e ∈ taken) : hoursOn (bookings pid taken) pid e.1 = e.2 := by
  induction taken with
  | nil => cases he
  | cons f taken ih =>
    obtain ⟨hfresh, hrest⟩ := List.nodup_cons.mp hnodup
    simp only [bookings, List.map_cons, hoursOn_cons] at ih ⊢
    rcases List.mem_cons.mp he with rfl | he
    · have hzero : hoursOn (bookings pid taken) pid e.1 = 0 := by
        apply hoursOn_eq_zero
        intro a ha hday
        obtain ⟨g, hg, rfl⟩ := List.mem_map.mp ha
        exact hfresh (List.mem_map.mpr ⟨g, hg, hday.2⟩)
      simp only [bookings] at hzero
      simp [hzero]
    · have hne : ¬ f.1 = e.1 := fun hday => hfresh (List.mem_map.mpr ⟨e, he, hday.symm⟩)
      rw [if_neg fun h => hne h.2, zero_add]
      exact ih hrest he

theorem hoursOn_bookings_of_not_mem {taken : List (Date × Int)} {d : Date} (hd : d ∉ taken.map Prod.fst) :
    hoursOn (bookings pid taken) pid d = 0 := by
  apply hoursOn_eq_zero
  intro a ha hday
  obtain ⟨e, he, rfl⟩ := List.mem_map.mp ha
  exact hd (List.mem_map.mpr ⟨e, he, hday.2⟩)

theorem hoursOn_bookings_other {taken : List (Date × Int)} {q : UUID} (hq : q ≠ pid) (d : Date) :
    hoursOn (bookings pid taken) q d = 0 := by
  apply hoursOn_eq_zero
  intro a ha hday
  obtain ⟨e, he, rfl⟩ := List.mem_map.mp ha
  exact hq hday.1.symm

theorem nodup_fill_days (cal : WorkingCalendar) (day : Date) (fuel : Nat) (hours : Int) :
    ((fill (free pid) (workDays cal day fuel) hours).1.map Prod.fst).Nodup :=
  (fill_sublist _ _).nodup (nodup_workDays cal day fuel)

theorem day_of_mem_bookings {filled : List (Date × Int)} {a : DayAllocation} (ha : a ∈ bookings pid filled) :
    a.day ∈ filled.map Prod.fst := by
  obtain ⟨e, he, rfl⟩ := List.mem_map.mp ha
  exact List.mem_map_of_mem he

theorem exists_mem_bookings {filled : List (Date × Int)} {d : Date} (hd : d ∈ filled.map Prod.fst) :
    ∃ a ∈ bookings pid filled, a.day = d := by
  obtain ⟨e, he, rfl⟩ := List.mem_map.mp hd
  exact ⟨⟨pid, e.1, e.2⟩, List.mem_map.mpr ⟨e, he, rfl⟩, rfl⟩

theorem sum_bookings (taken : List (Date × Int)) :
    ((bookings pid taken).map DayAllocation.hours).sum = (taken.map Prod.snd).sum := by
  rw [bookings, List.map_map]
  rfl

/-- What is filled in fits on each of its days. -/
theorem hoursOn_fill_room {a : DayAllocation}
    (ha : a ∈ bookings pid (fill (free pid) (workDays cal day fuel) hours).1) :
    hoursOn (bookings pid (fill (free pid) (workDays cal day fuel) hours).1) pid a.day ≤ free pid a.day := by
  obtain ⟨e, he, rfl⟩ := List.mem_map.mp ha
  rw [hoursOn_bookings (nodup_fill_days cal day fuel hours) he]
  exact (mem_fill he).2

theorem hoursOn_fill_le (d : Date) :
    hoursOn (bookings pid (fill (free pid) (workDays cal day fuel) hours).1) pid d ≤ max 0 (free pid d) := by
  by_cases hd : d ∈ (fill (free pid) (workDays cal day fuel) hours).1.map Prod.fst
  · obtain ⟨e, he, rfl⟩ := List.mem_map.mp hd
    rw [hoursOn_bookings (nodup_fill_days cal day fuel hours) he]
    exact (mem_fill he).2.trans (le_max_right _ _)
  · rw [hoursOn_bookings_of_not_mem hd]
    exact le_max_left _ _

/-- Days that do not hold the task are booked to the full. -/
theorem hoursOn_fill_full (hrest : 0 < (fill (free pid) (workDays cal day fuel) hours).2) {d : Date}
    (hd : d ∈ workDays cal day fuel) :
    hoursOn (bookings pid (fill (free pid) (workDays cal day fuel) hours).1) pid d = max 0 (free pid d) := by
  by_cases hbooked : d ∈ (fill (free pid) (workDays cal day fuel) hours).1.map Prod.fst
  · obtain ⟨e, he, rfl⟩ := List.mem_map.mp hbooked
    rw [hoursOn_bookings (nodup_fill_days cal day fuel hours) he, ← fill_full hrest he]
    exact (max_eq_right (mem_fill he).1.le).symm
  · rw [hoursOn_bookings_of_not_mem hbooked]
    refine (max_eq_left (not_lt.mp fun hfree => hbooked ?_)).symm
    refine exists_mem_fill_iff.mpr ⟨_, _, workDays_split hd, hfree, ?_⟩
    have hpos : 0 < hours := by
      refine not_le.mp fun h0 => ?_
      rw [fill_of_nonpos _ h0] at hrest
      exact absurd hrest (not_lt.mpr h0)
    have hall := room_append (free pid) (workDays cal day (d - day))
      (d :: workDays cal (d + 1) (day + fuel - (d + 1)))
    have htail := room_nonneg (free pid) (d :: workDays cal (d + 1) (day + fuel - (d + 1)))
    rw [← workDays_split hd] at hall
    rw [fill_rest _ _ hpos.le] at hrest
    omega

end Booked

end Planner
