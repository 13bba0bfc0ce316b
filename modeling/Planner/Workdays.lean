import Planner.Calendar

/-! Working days counted from a start: the `n`-th one after the first, and how
counting from one of them goes on. -/

namespace Planner

def workday (cal : WorkingCalendar) (start : Date) (n : Nat) : Date :=
  cal.nextWorkingDay^[n] (firstWorkingDay cal start)

variable {cal : WorkingCalendar}

theorem nthWorkingDay_eq_workday (start : Date) (n : ℕ+) :
    nthWorkingDay cal start n = workday cal start (n - 1) := rfl

theorem workday_zero (start : Date) : workday cal start 0 = firstWorkingDay cal start := rfl

theorem workday_succ (start : Date) (n : Nat) :
    workday cal start (n + 1) = cal.nextWorkingDay (workday cal start n) :=
  Function.iterate_succ_apply' _ _ _

theorem workday_working (start : Date) (n : Nat) : cal.isWorkingDay (workday cal start n) = true :=
  (iterate_next_working n (firstWorkingDay_working start)).1

theorem le_workday (start : Date) (n : Nat) : start ≤ workday cal start n :=
  (le_firstWorkingDay start).trans (iterate_next_working n (firstWorkingDay_working start)).2

theorem nextWorkingDay_mono {a b : Date} (h : a ≤ b) : cal.nextWorkingDay a ≤ cal.nextWorkingDay b :=
  cal.next_least a _ (Nat.lt_of_le_of_lt h (cal.lt_next b)) (cal.next_working b)

theorem workday_mono_left {a b : Date} (h : a ≤ b) (n : Nat) : workday cal a n ≤ workday cal b n := by
  induction n with
  | zero => exact firstWorkingDay_mono h
  | succ n ih =>
    rw [workday_succ, workday_succ]
    exact nextWorkingDay_mono ih

theorem workday_strictMono (start : Date) : StrictMono (workday cal start) :=
  strictMono_nat_of_lt_succ fun n => by
    rw [workday_succ]
    exact cal.lt_next _

theorem workday_le_iff {start : Date} {m n : Nat} : workday cal start m ≤ workday cal start n ↔ m ≤ n :=
  (workday_strictMono start).le_iff_le

theorem workday_add (start : Date) (m n : Nat) :
    workday cal (workday cal start m) n = workday cal start (m + n) := by
  induction n with
  | zero => exact firstWorkingDay_of_working (workday_working start m)
  | succ n ih => rw [workday_succ, ih, ← Nat.add_assoc, workday_succ]

theorem firstWorkingDay_succ (d : Date) : firstWorkingDay cal (d + 1) = cal.nextWorkingDay d := by
  refine le_antisymm (firstWorkingDay_le (Nat.succ_le_of_lt (cal.lt_next d)) (cal.next_working d)) ?_
  exact cal.next_least d _ (le_firstWorkingDay (d + 1)) (firstWorkingDay_working _)

theorem workday_day_after {d : Date} (h : cal.isWorkingDay d = true) (n : Nat) :
    workday cal (d + 1) n = workday cal d (n + 1) := by
  rw [workday, firstWorkingDay_succ, workday, firstWorkingDay_of_working h]
  rfl

theorem workday_day_off {d : Date} (h : cal.isWorkingDay d = false) (n : Nat) :
    workday cal (d + 1) n = workday cal d n := by
  rw [workday, firstWorkingDay_succ, workday, firstWorkingDay, if_neg (by simp [h])]

end Planner
