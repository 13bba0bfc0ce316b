import Mathlib.Algebra.BigOperators.Group.Finset.Basic
import Mathlib.Order.Interval.Finset.Nat
import Planner.CandidateOffers
import Planner.PlacementErrors

/-! A split placement is over as early as any: it takes the whole of every day
before its last, and leaves hours over only if the horizon has no room for them. -/

namespace Planner

open Filling

/-- The loop of the split placement ends with hours left, which go on the start day. -/
def DumpsRemainder (task : Task) (person : Person) (earliest : Date) (cal : WorkingCalendar)
    (idx : CapacityIndex) (limit : Date) : Prop :=
  0 < (splitLoop cal person.id (limit + 1 - firstWorkingDay cal earliest) (firstWorkingDay cal earliest)
    task.durationHours idx).2.1

/-- `allocs` gives the person so many hours on working days from `earliest` on,
on none of them more than remain. -/
structure SharesOut (person : Person) (earliest : Date) (cal : WorkingCalendar) (idx : CapacityIndex) (hours : Int)
    (allocs : List DayAllocation) : Prop where
  own : ∀ a ∈ allocs, a.personId = person.id
  days : ∀ a ∈ allocs, earliest ≤ a.day ∧ cal.isWorkingDay a.day = true
  capacity : ∀ a ∈ allocs, hoursOn allocs person.id a.day ≤ (idx.remaining person.id a.day).1
  total : (allocs.map DayAllocation.hours).sum = hours

section Days

variable {cal : WorkingCalendar} {free : UUID → Date → Int} {pid : UUID} {hours : Int}

theorem bookings_append (taken later : List (Date × Int)) :
    bookings pid (taken ++ later) = bookings pid taken ++ bookings pid later :=
  List.map_append

/-- A day before one that is booked is booked to the full. -/
theorem hoursOn_before {day d e : Date} {fuel : Nat} (hd : d ∈ workDays cal day fuel) (hlt : d < e)
    (he : e ∈ (fill (free pid) (workDays cal day fuel) hours).1.map Prod.fst) :
    hoursOn (bookings pid (fill (free pid) (workDays cal day fuel) hours).1) pid d = max 0 (free pid d) := by
  obtain ⟨pre, post, hsplit, -, hroom⟩ := exists_mem_fill_iff.mp he
  have hpre := workDays_pre hsplit
  have hpos : 0 < hours := (room_nonneg (free pid) pre).trans_lt hroom
  have hrest : 0 < (fill (free pid) pre hours).2 := by
    rw [fill_rest _ _ hpos.le]
    omega
  have hmem : d ∈ pre := by
    obtain ⟨⟨hle, -⟩, hw⟩ := mem_workDays.mp hd
    rw [hpre]
    exact mem_workDays.mpr ⟨⟨hle, by lia⟩, hw⟩
  -- nothing from the booked day on falls on `d`
  have hlater : d ∉ (fill (free pid) (e :: post) (fill (free pid) pre hours).2).1.map Prod.fst := by
    intro hd'
    have hnodup := nodup_workDays cal day fuel
    rw [hsplit, List.nodup_append] at hnodup
    exact hnodup.2.2 d hmem d ((fill_sublist _ _).subset hd') rfl
  rw [hsplit, fill_append, bookings_append, hoursOn_append, hoursOn_bookings_of_not_mem hlater, add_zero]
  rw [hpre] at hrest hmem ⊢
  exact hoursOn_fill_full hrest hmem

theorem room_workDays {earliest limit : Date} :
    room (free pid) (workDays cal (firstWorkingDay cal earliest) (limit + 1 - firstWorkingDay cal earliest)) =
      ∑ d ∈ (Finset.Icc earliest limit).filter (fun d => cal.isWorkingDay d = true), max 0 (free pid d) := by
  have hdays : (Finset.Icc earliest limit).filter (fun d => cal.isWorkingDay d = true) =
      (workDays cal (firstWorkingDay cal earliest) (limit + 1 - firstWorkingDay cal earliest)).toFinset := by
    ext d
    rw [Finset.mem_filter, Finset.mem_Icc, List.mem_toFinset, mem_workDays]
    constructor
    · rintro ⟨⟨hle, hlim⟩, hd⟩
      have hfirst := firstWorkingDay_le hle hd
      exact ⟨⟨hfirst, by lia⟩, hd⟩
    · rintro ⟨⟨hle, hlim⟩, hd⟩
      have hearly : earliest ≤ firstWorkingDay cal earliest := le_firstWorkingDay earliest
      exact ⟨⟨hearly.trans hle, by lia⟩, hd⟩
  rw [hdays, List.sum_toFinset _ (nodup_workDays cal _ _)]
  rfl

end Days

section Split

variable {task : Task} {person : Person} {earliest : Date} {cal : WorkingCalendar} {idx : CapacityIndex} {limit : Date}

theorem dumpsRemainder_iff (hpos : 0 < task.durationHours) : DumpsRemainder task person earliest cal idx limit ↔
    room (idx.free person.id) (workDays cal (firstWorkingDay cal earliest)
      (limit + 1 - firstWorkingDay cal earliest)) < task.durationHours := by
  rw [DumpsRemainder, (splitLoop_spec _ _ _ _ _ _).2.1, fillDays_eq]
  dsimp only
  rw [fill_rest _ _ hpos.le]
  omega

theorem rest_of_not_dumps (hpos : 0 < task.durationHours)
    (h : ¬ DumpsRemainder task person earliest cal idx limit) :
    (fill (idx.free person.id) (workDays cal (firstWorkingDay cal earliest)
      (limit + 1 - firstWorkingDay cal earliest)) task.durationHours).2 = 0 := by
  rw [dumpsRemainder_iff hpos] at h
  rw [fill_rest _ _ hpos.le]
  omega

theorem allocateSplit_ok (hpos : 0 < task.durationHours) : ∃ p idx',
    allocateSplit task person earliest cal idx limit = .ok (p, idx') ∧
      placementOf { task with isSplittable := true } person.id earliest cal idx.free limit = .ok p := by
  obtain ⟨⟨p, idx'⟩, h⟩ := (@allocate_isOk { task with isSplittable := true } person earliest cal idx limit).mpr
    fun _ => hpos
  exact ⟨p, idx', h, (allocate_ok h).1⟩

variable {p : Placement}

/-- Without a dump everything that is booked fits. -/
theorem split_sharesOut (hs : task.isSplittable = true)
    (h : placementOf task person.id earliest cal idx.free limit = .ok p)
    (hdone : ¬ DumpsRemainder task person earliest cal idx limit) :
    SharesOut person earliest cal idx task.durationHours p.allocs := by
  have hpos := positive_of_split hs h
  obtain ⟨days, hdays⟩ : ∃ days, days = workDays cal (firstWorkingDay cal earliest)
    (limit + 1 - firstWorkingDay cal earliest) := ⟨_, rfl⟩
  have hrest : (fill (idx.free person.id) days task.durationHours).2 = 0 := hdays ▸ rest_of_not_dumps hpos hdone
  obtain ⟨hallocs, -⟩ := placementOf_split_ok hs h rfl
  rw [← hdays, hrest, if_neg (lt_irrefl 0)] at hallocs
  have hsum := sum_fill (idx.free person.id) days task.durationHours
  rw [hrest, add_zero] at hsum
  rw [hallocs]
  refine ⟨?_, ?_, ?_, ?_⟩
  · intro a ha
    obtain ⟨e, -, rfl⟩ := List.mem_map.mp ha
    rfl
  · intro a ha
    have hday := (fill_sublist _ _).subset (day_of_mem_bookings ha)
    rw [hdays] at hday
    obtain ⟨⟨hle, -⟩, hw⟩ := mem_workDays.mp hday
    exact ⟨(le_firstWorkingDay _).trans hle, hw⟩
  · rw [hdays]
    exact fun a ha => hoursOn_fill_room ha
  · rw [sum_bookings]
    exact hsum

/-- Nothing that fits is over before it. -/
theorem split_least (hs : task.isSplittable = true)
    (h : placementOf task person.id earliest cal idx.free limit = .ok p)
    (hdone : ¬ DumpsRemainder task person earliest cal idx limit) :
    IsLeast {e | ∃ allocs, SharesOut person earliest cal idx task.durationHours allocs ∧
      (allocs.map DayAllocation.day).max? = some e} p.endDate := by
  have hpos := positive_of_split hs h
  obtain ⟨-, -, a, ha, hlast⟩ := placementOf_split_ok hs h rfl
  constructor
  · refine ⟨p.allocs, split_sharesOut hs h hdone, List.max?_eq_some_iff.mpr ⟨?_, ?_⟩⟩
    · exact List.mem_map.mpr ⟨a, ha, hlast⟩
    · intro d hd
      obtain ⟨b, hb, rfl⟩ := List.mem_map.mp hd
      exact (p.within b hb).2
  · rintro e ⟨allocs, hshare, hend⟩
    by_contra hlt
    have hcan : CanHold task person.id cal idx.free (firstWorkingDay cal earliest) (limit + 1) := by
      rw [dumpsRemainder_iff hpos, not_lt] at hdone
      exact (canHold_split hs hpos).mpr hdone
    obtain ⟨-, -, -, hnone⟩ := ((offer_split hs h).holds hcan).2
    refine hnone ⟨allocs, fun b hb => ?_, hshare.total, fun hwhole => ?_⟩
    · obtain ⟨hle, hw⟩ := hshare.days b hb
      have hbe : b.day ≤ e := (List.max?_eq_some_iff.mp hend).2 _ (List.mem_map_of_mem hb)
      exact ⟨hshare.own b hb, ⟨firstWorkingDay_le hle hw, lt_of_le_of_lt hbe (not_le.mp hlt)⟩, hw,
        hshare.capacity b hb⟩
    · rw [hs] at hwhole
      cases hwhole

/-- No hours are left over on the days before the last. -/
theorem split_full (hs : task.isSplittable = true)
    (h : placementOf task person.id earliest cal idx.free limit = .ok p)
    (hdone : ¬ DumpsRemainder task person earliest cal idx limit) {d : Date}
    (hfirst : firstWorkingDay cal earliest ≤ d) (hd : d < p.endDate) (hw : cal.isWorkingDay d = true) :
    hoursOn p.allocs person.id d = max 0 (idx.free person.id d) := by
  have hpos := positive_of_split hs h
  obtain ⟨hallocs, -, a, ha, hlast⟩ := placementOf_split_ok hs h rfl
  rw [rest_of_not_dumps hpos hdone, if_neg (lt_irrefl 0)] at hallocs
  rw [hallocs] at ha ⊢
  have hend : p.endDate ∈ (fill (idx.free person.id) (workDays cal (firstWorkingDay cal earliest)
      (limit + 1 - firstWorkingDay cal earliest)) task.durationHours).1.map Prod.fst :=
    hlast ▸ day_of_mem_bookings ha
  obtain ⟨⟨-, hin⟩, -⟩ := mem_workDays.mp ((fill_sublist _ _).subset hend)
  exact hoursOn_before (mem_workDays.mpr ⟨⟨hfirst, hd.trans hin⟩, hw⟩) hd hend

end Split

/-- The split placement is done as early as the remaining capacities allow, with
every earlier day taken to the full; hours are dumped exactly if the horizon
does not hold them. -/
theorem allocateSplit_earliest (task : Task) (person : Person) (earliest : Date) (cal : WorkingCalendar)
    (idx : CapacityIndex) (limit : Date) (hpos : 0 < task.durationHours) :
    ∃ p idx', allocateSplit task person earliest cal idx limit = .ok (p, idx') ∧
      (¬ DumpsRemainder task person earliest cal idx limit →
        (∀ d, firstWorkingDay cal earliest ≤ d → d < p.endDate → cal.isWorkingDay d = true →
          hoursOn p.allocs person.id d = max 0 (idx.remaining person.id d).1) ∧
        IsLeast {e | ∃ allocs, SharesOut person earliest cal idx task.durationHours allocs ∧
          (allocs.map DayAllocation.day).max? = some e} p.endDate) ∧
      (DumpsRemainder task person earliest cal idx limit ↔
        ∑ d ∈ (Finset.Icc earliest limit).filter (fun d => cal.isWorkingDay d = true),
          max 0 (idx.remaining person.id d).1 < task.durationHours) := by
  obtain ⟨p, idx', h, hp⟩ := @allocateSplit_ok task person earliest cal idx limit hpos
  refine ⟨p, idx', h, fun hdone => ?_, ?_⟩
  · have hleast := split_least rfl hp hdone
    exact ⟨fun d hfirst hd hw => split_full rfl hp hdone hfirst hd hw, hleast⟩
  · rw [dumpsRemainder_iff hpos, room_workDays]
    rfl

/-- Anna has three hours left on Monday and is off on Tuesday. -/
def annaWeek : CapacityIndex :=
  .init [⟨1, "Анна", 8⟩] GreedySolver.onWeekdays.calendar [⟨1, Date.ofYmd 2026 6 2, 0⟩] [⟨1, Date.ofYmd 2026 6 1, 5⟩]

def draftTask : Task where
  id := 7
  name := "Черновик"
  durationHours := 13
  allowedPersonIds := [1]
  isSplittable := true

theorem allocateSplit_earliest_anna : ∃ p idx', allocateSplit draftTask ⟨1, "Анна", 8⟩ (Date.ofYmd 2026 5 30)
      GreedySolver.onWeekdays.calendar annaWeek (Date.ofYmd 2026 6 30) = .ok (p, idx') ∧
    (¬ DumpsRemainder draftTask ⟨1, "Анна", 8⟩ (Date.ofYmd 2026 5 30) GreedySolver.onWeekdays.calendar annaWeek
        (Date.ofYmd 2026 6 30) →
      (∀ d, firstWorkingDay GreedySolver.onWeekdays.calendar (Date.ofYmd 2026 5 30) ≤ d → d < p.endDate →
        GreedySolver.onWeekdays.calendar.isWorkingDay d = true →
          hoursOn p.allocs 1 d = max 0 (annaWeek.remaining 1 d).1) ∧
      IsLeast {e | ∃ allocs, SharesOut ⟨1, "Анна", 8⟩ (Date.ofYmd 2026 5 30) GreedySolver.onWeekdays.calendar annaWeek
        13 allocs ∧ (allocs.map DayAllocation.day).max? = some e} p.endDate) ∧
    (DumpsRemainder draftTask ⟨1, "Анна", 8⟩ (Date.ofYmd 2026 5 30) GreedySolver.onWeekdays.calendar annaWeek
        (Date.ofYmd 2026 6 30) ↔
      ∑ d ∈ (Finset.Icc (Date.ofYmd 2026 5 30) (Date.ofYmd 2026 6 30)).filter
          (fun d => GreedySolver.onWeekdays.calendar.isWorkingDay d = true),
        max 0 (annaWeek.remaining 1 d).1 < 13) :=
  allocateSplit_earliest draftTask ⟨1, "Анна", 8⟩ (Date.ofYmd 2026 5 30) GreedySolver.onWeekdays.calendar annaWeek
    (Date.ofYmd 2026 6 30) (by decide)

end Planner
