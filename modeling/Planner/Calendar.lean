import Mathlib.Algebra.GroupWithZero.Nat
import Mathlib.Algebra.Ring.Int.Defs
import Mathlib.Data.List.MinMax
import Mathlib.Data.PNat.Notation
import Mathlib.Data.PNat.Defs
import Mathlib.Logic.Function.Iterate

/-! Calendar days and working-day arithmetic. A date is its proleptic Gregorian
ordinal, so `1` is Monday 0001-01-01 and a day is one unit. No upper end of
the representable range here: `WorkdayLoops` has it. -/

namespace Planner

/-- `date.toordinal()`. -/
abbrev Date := Nat

namespace Date

/-- Monday is `0`, Sunday is `6`. -/
def weekday (d : Date) : Nat := (d + 6) % 7

def isLeap (year : Nat) : Bool := year % 4 == 0 && (year % 100 != 0 || year % 400 == 0)

def monthLengths (year : Nat) : List Nat :=
  [31, if isLeap year then 29 else 28, 31, 30, 31, 30, 31, 31, 30, 31, 30, 31]

/-- `date(year, month, day)`. -/
def ofYmd (year month day : Nat) : Date :=
  let y := year - 1
  y * 365 + y / 4 - y / 100 + y / 400 + ((monthLengths year).take (month - 1)).sum + day

/-- Month and day of the month of a day counted from the start of its year. -/
def splitMonth : List Nat → Nat → Nat → Nat × Nat
  | [], month, n => (month, n + 1)
  | len :: lens, month, n => if n < len then (month, n + 1) else splitMonth lens (month + 1) (n - len)

def toYmd (d : Date) : Nat × Nat × Nat :=
  let n := d - 1
  let n400 := n / 146097
  let n := n % 146097
  let n100 := n / 36524
  let n := n % 36524
  let n4 := n / 1461
  let n := n % 1461
  let n1 := n / 365
  let n := n % 365
  let year := n400 * 400 + n100 * 100 + n4 * 4 + n1 + 1
  -- the last day of a leap cycle overflows the 365-day split
  if n1 = 4 ∨ n100 = 4 then (year - 1, 12, 31) else (year, splitMonth (monthLengths year) 1 n)

def pad (width : Nat) (n : Nat) : String :=
  let s := toString n
  "".pushn '0' (width - s.length) ++ s

def isoformat (d : Date) : String :=
  let (year, month, day) := d.toYmd
  pad 4 year ++ "-" ++ pad 2 month ++ "-" ++ pad 2 day

end Date

example : Date.weekday (Date.ofYmd 2026 6 1) = 0 ∧
    Date.toYmd (Date.ofYmd 2026 6 1) = (2026, 6, 1) := by decide

/-- The port the solver consumes: what its implementations answer and what a
caller may rely on. -/
structure WorkingCalendar where
  isWorkingDay : Date → Bool
  nextWorkingDay : Date → Date
  lt_next : ∀ d, d < nextWorkingDay d
  next_working : ∀ d, isWorkingDay (nextWorkingDay d) = true
  next_least : ∀ d e, d < e → isWorkingDay e = true → nextWorkingDay d ≤ e

/-- Weekends and an explicit holiday set are off. -/
structure WeekendCalendar where
  holidays : List Date

namespace WeekendCalendar

variable (c : WeekendCalendar)

def isWorkingDay (d : Date) : Bool :=
  !(d.weekday == 5 || d.weekday == 6) && !c.holidays.contains d

def lastHoliday : Date := c.holidays.foldr max 0

/-- The `while not self.is_working_day(d): d += 1` loop, cut off after `fuel` days. -/
def scan : Nat → Date → Date
  | 0, d => d
  | fuel + 1, d => if c.isWorkingDay d then d else scan fuel (d + 1)

/-- The loop is over three days past the last holiday at the latest. -/
def nextWorkingDay (d : Date) : Date := c.scan (c.lastHoliday + 3) (d + 1)

/-- The `while d < b` loop, with `days` still to go. -/
def countWorking (n : Nat) (d : Date) : Nat → Nat
  | 0 => n
  | days + 1 => countWorking (if c.isWorkingDay d then n + 1 else n) (d + 1) days

/-- Working days in the half-open `[a, b)`. -/
def businessDaysBetween (a b : Date) : Nat :=
  if b ≤ a then 0 else c.countWorking 0 a (b - a)

variable {c}

theorem le_lastHoliday {d : Date} (h : d ∈ c.holidays) : d ≤ c.lastHoliday := by
  have key : ∀ l : List Date, d ∈ l → d ≤ l.foldr max 0 := by
    intro l
    induction l with
    | nil => simp
    | cons e l ih =>
      intro hd
      rcases List.mem_cons.mp hd with rfl | hd
      · exact le_max_left _ _
      · exact (ih hd).trans (le_max_right _ _)
  exact key _ h

theorem exists_working (d : Date) :
    ∃ e, d ≤ e ∧ e ≤ d + (c.lastHoliday + 3) ∧ c.isWorkingDay e = true := by
  have hoff : ∀ e, c.lastHoliday < e → e ∉ c.holidays := fun e he hm =>
    absurd (le_lastHoliday hm) (by lia)
  let m := max d (c.lastHoliday + 1)
  have hm : d ≤ m ∧ c.lastHoliday < m ∧ m ≤ d + (c.lastHoliday + 1) := by lia
  have hday : ∃ e, m ≤ e ∧ e ≤ m + 2 ∧ e.weekday ≠ 5 ∧ e.weekday ≠ 6 := by
    simp only [Date.weekday]
    by_cases h5 : (m + 6) % 7 = 5
    · exact ⟨m + 2, by lia⟩
    · by_cases h6 : (m + 6) % 7 = 6
      · exact ⟨m + 1, by lia⟩
      · exact ⟨m, by lia⟩
  obtain ⟨e, hme, hem, h5, h6⟩ := hday
  refine ⟨e, by lia, by lia, ?_⟩
  have hn := hoff e (by lia)
  simp [isWorkingDay, h5, h6, hn]

theorem scan_spec {fuel : Nat} {d : Date}
    (h : ∃ e, d ≤ e ∧ e ≤ d + fuel ∧ c.isWorkingDay e = true) :
    c.isWorkingDay (c.scan fuel d) = true ∧ d ≤ c.scan fuel d ∧
      ∀ e, d ≤ e → c.isWorkingDay e = true → c.scan fuel d ≤ e := by
  induction fuel generalizing d with
  | zero =>
    obtain ⟨e, hde, hed, he⟩ := h
    obtain rfl : e = d := by lia
    exact ⟨he, le_rfl, fun _ hh _ => hh⟩
  | succ fuel ih =>
    by_cases hd : c.isWorkingDay d = true
    · simp only [scan, hd, if_true]
      exact ⟨trivial, le_rfl, fun _ hh _ => hh⟩
    · have hne : ∀ e, d ≤ e → c.isWorkingDay e = true → d + 1 ≤ e := by
        intro e hde he
        rcases Nat.lt_or_eq_of_le hde with hlt | rfl
        · exact hlt
        · exact absurd he hd
      obtain ⟨e, hde, hed, he⟩ := h
      have hh := ih ⟨e, hne e hde he, by lia, he⟩
      simp only [scan, hd]
      exact ⟨hh.1, by have := hh.2.1; lia, fun e' h₁ h₂ => hh.2.2 e' (hne e' h₁ h₂) h₂⟩

theorem nextWorkingDay_spec (d : Date) :
    c.isWorkingDay (c.nextWorkingDay d) = true ∧ d < c.nextWorkingDay d ∧
      ∀ e, d < e → c.isWorkingDay e = true → c.nextWorkingDay d ≤ e :=
  scan_spec (exists_working (d + 1))

/-- The only implementation of the port keeps its promises. -/
def toWorkingCalendar (c : WeekendCalendar) : WorkingCalendar where
  isWorkingDay := c.isWorkingDay
  nextWorkingDay := c.nextWorkingDay
  lt_next d := (nextWorkingDay_spec d).2.1
  next_working d := (nextWorkingDay_spec d).1
  next_least d := (nextWorkingDay_spec d).2.2

end WeekendCalendar

/-- `start` if it is a working day, else the next working day. -/
def firstWorkingDay (cal : WorkingCalendar) (start : Date) : Date :=
  if cal.isWorkingDay start then start else cal.nextWorkingDay start

/-- The `n`-th working day on or after `start`, counted from one. The type of
`n` is the source's `n >= 1` guard. -/
def nthWorkingDay (cal : WorkingCalendar) (start : Date) (n : ℕ+) : Date :=
  cal.nextWorkingDay^[n - 1] (firstWorkingDay cal start)

section Rules

variable {cal : WorkingCalendar}

theorem le_firstWorkingDay (start : Date) : start ≤ firstWorkingDay cal start := by
  unfold firstWorkingDay
  split
  · exact le_rfl
  · exact (cal.lt_next start).le

theorem firstWorkingDay_working (start : Date) :
    cal.isWorkingDay (firstWorkingDay cal start) = true := by
  unfold firstWorkingDay
  split
  · assumption
  · exact cal.next_working start

theorem firstWorkingDay_of_working {d : Date} (h : cal.isWorkingDay d = true) :
    firstWorkingDay cal d = d := if_pos h

theorem firstWorkingDay_le {start e : Date} (h : start ≤ e) (he : cal.isWorkingDay e = true) :
    firstWorkingDay cal start ≤ e := by
  unfold firstWorkingDay
  split
  · exact h
  · rename_i hs
    rcases Nat.lt_or_eq_of_le h with hlt | rfl
    · exact cal.next_least start e hlt he
    · exact absurd he hs

theorem firstWorkingDay_mono {a b : Date} (h : a ≤ b) :
    firstWorkingDay cal a ≤ firstWorkingDay cal b :=
  firstWorkingDay_le (h.trans (le_firstWorkingDay b)) (firstWorkingDay_working b)

@[simp] theorem firstWorkingDay_next (d : Date) :
    firstWorkingDay cal (cal.nextWorkingDay d) = cal.nextWorkingDay d :=
  firstWorkingDay_of_working (cal.next_working d)

theorem iterate_next_working (k : Nat) {d : Date} (h : cal.isWorkingDay d = true) :
    cal.isWorkingDay (cal.nextWorkingDay^[k] d) = true ∧ d ≤ cal.nextWorkingDay^[k] d := by
  induction k generalizing d with
  | zero => exact ⟨h, le_rfl⟩
  | succ k ih =>
    have hh := ih (cal.next_working d)
    exact ⟨hh.1, (cal.lt_next d).le.trans hh.2⟩

theorem nthWorkingDay_working (start : Date) (n : ℕ+) :
    cal.isWorkingDay (nthWorkingDay cal start n) = true :=
  (iterate_next_working _ (firstWorkingDay_working start)).1

theorem firstWorkingDay_le_nthWorkingDay (start : Date) (n : ℕ+) :
    firstWorkingDay cal start ≤ nthWorkingDay cal start n :=
  (iterate_next_working _ (firstWorkingDay_working start)).2

end Rules

end Planner
