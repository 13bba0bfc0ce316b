import Planner.Allocate
import Mathlib.Order.Bounds.Basic

/-! A task that is not split goes on the least working day that leaves room for
it with everyone who takes part, and is dumped on the first working day exactly
if the horizon has no such day. -/

namespace Planner

/-- The days up to the limit on which every participant still has the hours. -/
def roomDays (cal : WorkingCalendar) (idx : CapacityIndex) (participants : List UUID) (hours : Int)
    (earliest limit : Date) : Set Date :=
  {d | (firstWorkingDay cal earliest ≤ d ∧ d ≤ limit) ∧ cal.isWorkingDay d = true ∧
    ∀ p ∈ participants, hours ≤ (idx.remaining p d).1}

/-- The search of `allocateTogether` ends without a day. -/
def FallsBack (cal : WorkingCalendar) (idx : CapacityIndex) (participants : List UUID) (hours : Int)
    (earliest limit : Date) : Prop :=
  (searchDay cal participants hours (limit + 1 - firstWorkingDay cal earliest)
    (firstWorkingDay cal earliest) idx).1 = none

/-- `p` is the earliest of the placements on one day that fit, else a dump. -/
structure EarliestFit (cal : WorkingCalendar) (idx : CapacityIndex) (participants : List UUID) (hours : Int)
    (earliest limit : Date) (p : Placement) : Prop where
  allocs : p.allocs = participants.map fun q => ⟨q, p.startDate, hours⟩
  oneDay : p.endDate = p.startDate
  least : ¬ FallsBack cal idx participants hours earliest limit →
    IsLeast (roomDays cal idx participants hours earliest limit) p.startDate
  dumped : FallsBack cal idx participants hours earliest limit → p.startDate = firstWorkingDay cal earliest
  fallsBack_iff : FallsBack cal idx participants hours earliest limit ↔
    ¬ ∃ d, d ∈ roomDays cal idx participants hours earliest limit

section

variable {cal : WorkingCalendar} {idx : CapacityIndex} {ps : List UUID} {hours : Int} {earliest limit d : Date}

theorem isLeast_firstFit
    (h : firstFit cal idx.free ps hours (limit + 1 - firstWorkingDay cal earliest)
      (firstWorkingDay cal earliest) = some d) :
    IsLeast (roomDays cal idx ps hours earliest limit) d := by
  obtain ⟨⟨hw, hroom⟩, ⟨hle, hlt⟩, hbefore⟩ := firstFit_eq_some_iff.mp h
  refine ⟨⟨⟨hle, by lia⟩, hw, hroom⟩, ?_⟩
  rintro e ⟨⟨hfirst, -⟩, hwe, hroome⟩
  by_contra hed
  obtain ⟨p, hp, hfull⟩ := hbefore e hfirst (not_le.mp hed) hwe
  exact absurd (hroome p hp) (not_le.mpr hfull)

theorem firstFit_none_iff :
    firstFit cal idx.free ps hours (limit + 1 - firstWorkingDay cal earliest)
        (firstWorkingDay cal earliest) = none ↔
      ¬ ∃ d, d ∈ roomDays cal idx ps hours earliest limit := by
  rw [firstFit_eq_none_iff]
  constructor
  · rintro h ⟨d, ⟨hle, hlim⟩, hw, hroom⟩
    obtain ⟨p, hp, hfull⟩ := h d hle (by lia) hw
    exact absurd (hroom p hp) (not_le.mpr hfull)
  · intro h d hle hlt hw
    by_contra hall
    push Not at hall
    exact h ⟨d, ⟨hle, by lia⟩, hw, hall⟩

theorem fallsBack_iff : FallsBack cal idx ps hours earliest limit ↔
    firstFit cal idx.free ps hours (limit + 1 - firstWorkingDay cal earliest)
      (firstWorkingDay cal earliest) = none := by
  rw [FallsBack, (searchDay_spec _ _ _ _ _ _).1]

theorem allocateTogether_earliestFit (ps : List UUID) (task : Task) (earliest : Date) (cal : WorkingCalendar)
    (idx : CapacityIndex) (limit : Date) :
    EarliestFit cal idx ps task.durationHours earliest limit
      (allocateTogether ps task earliest cal idx limit).1 := by
  rw [(allocateTogether_spec ps task earliest cal idx limit).1]
  refine ⟨rfl, rfl, fun hfound => ?_, fun hnone => ?_, fallsBack_iff.trans firstFit_none_iff⟩
  · rw [fallsBack_iff] at hfound
    obtain ⟨d, hd⟩ := Option.ne_none_iff_exists'.mp hfound
    rw [hd]
    exact isLeast_firstFit hd
  · rw [fallsBack_iff.mp hnone]
    rfl

end

/-- One person or two who work together: the least day that fits all of them. -/
theorem allocate_earliestFit (task : Task) (earliest : Date) (cal : WorkingCalendar) (idx : CapacityIndex)
    (limit : Date) :
    (∀ person : Person, EarliestFit cal idx [person.id] task.durationHours earliest limit
      (allocateSingle task person earliest cal idx limit).1) ∧
    ∀ p1 p2 : Person, EarliestFit cal idx [p1.id, p2.id] task.durationHours earliest limit
      (allocatePair task p1 p2 earliest cal idx limit).1 :=
  ⟨fun person => allocateTogether_earliestFit [person.id] task earliest cal idx limit,
    fun p1 p2 => allocateTogether_earliestFit [p1.id, p2.id] task earliest cal idx limit⟩

end Planner
