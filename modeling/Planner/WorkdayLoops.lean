import Planner.Calendar
import Planner.Lib.WhileLoop

/-! The calendar's loops turn by turn, on dates that can run out. A call that
returns at all returns what the functions of `Calendar` compute, and it returns
whenever that is still a date. -/

namespace Planner

namespace Date

/-- `date.max`. -/
def last : Date := ofYmd 9999 12 31

example : last = 3652059 := by decide

/-- `d + timedelta(days=1)`, which overflows on the last date. -/
def addDay (d : Date) : Option Date := if d < last then some (d + 1) else none

theorem addDay_eq_some {d e : Date} : d.addDay = some e ↔ e = d + 1 ∧ e ≤ last := by
  unfold addDay
  split
  · constructor
    · intro h
      cases h
      exact ⟨rfl, by lia⟩
    · rintro ⟨rfl, _⟩
      rfl
  · constructor
    · intro h
      cases h
    · rintro ⟨rfl, h⟩
      lia

end Date

namespace WeekendCalendar

variable (c : WeekendCalendar)

/-- `next_working_day(day)` returns `t`. -/
def NextWorkingDay (day t : Date) : Prop :=
  ∃ d, day.addDay = some d ∧ WhileLoop (fun d => !c.isWorkingDay d) Date.addDay d t

/-- One turn of the counting loop, on `(n, d)`. -/
def countTurn (s : Nat × Date) : Option (Nat × Date) :=
  s.2.addDay.map fun d => (if c.isWorkingDay s.2 then s.1 + 1 else s.1, d)

/-- `business_days_between(a, b)` returns `n`. -/
def BusinessDaysBetween (a b : Date) (n : Nat) : Prop :=
  if b ≤ a then n = 0 else ∃ d, WhileLoop (fun s => decide (s.2 < b)) c.countTurn (0, a) (n, d)

/-- `first_working_day(c, start)` returns `t`. -/
def FirstWorkingDay (start t : Date) : Prop :=
  if c.isWorkingDay start then t = start else c.NextWorkingDay start t

/-- `nth_working_day(c, start, n)` returns `t`. -/
def NthWorkingDay (start : Date) (n : ℕ+) (t : Date) : Prop :=
  ∃ day, c.FirstWorkingDay start day ∧ ForLoop c.NextWorkingDay (n - 1) day t

variable {c}

/-- The search has not passed a day it found off. -/
theorem lt_nextWorkingDay_of_off {day d : Date} (hle : d ≤ c.nextWorkingDay day)
    (hoff : (!c.isWorkingDay d) = true) : d < c.nextWorkingDay day := by
  apply Nat.lt_of_le_of_ne hle
  rintro rfl
  have hworking := (c.nextWorkingDay_spec day).1
  simp [hworking] at hoff

theorem nextWorkingDay_returns {day t : Date} :
    c.NextWorkingDay day t ↔ t = c.nextWorkingDay day ∧ t ≤ Date.last := by
  obtain ⟨_, hlt, hleast⟩ := c.nextWorkingDay_spec day
  constructor
  · rintro ⟨d, hd, hloop⟩
    rw [Date.addDay_eq_some] at hd
    have hend := hloop.invariant (I := fun e => day < e ∧ e ≤ c.nextWorkingDay day ∧ e ≤ Date.last)
      (by lia) (by
        intro e e' he hoff hturn
        have hlt' := lt_nextWorkingDay_of_off he.2.1 hoff
        rw [Date.addDay_eq_some] at hturn
        lia)
    obtain ⟨⟨hday, hle, hlast⟩, hon⟩ := hend
    exact ⟨le_antisymm hle (hleast t hday (by simpa using hon)), hlast⟩
  · rintro ⟨rfl, hlast⟩
    have htotal : ∃ t, WhileLoop (fun d => !c.isWorkingDay d) Date.addDay (day + 1) t ∧
        (day < t ∧ t ≤ c.nextWorkingDay day) ∧ (!c.isWorkingDay t) = false := by
      apply WhileLoop.total (I := fun e => day < e ∧ e ≤ c.nextWorkingDay day)
        (fun e => c.nextWorkingDay day - e) (by lia)
      intro e he hoff
      have hlt' := lt_nextWorkingDay_of_off he.2 hoff
      exact ⟨e + 1, Date.addDay_eq_some.mpr ⟨rfl, by lia⟩, by lia, by lia⟩
    obtain ⟨t, hloop, ⟨hday, hle⟩, hon⟩ := htotal
    obtain rfl : t = c.nextWorkingDay day := le_antisymm hle (hleast t hday (by simpa using hon))
    exact ⟨day + 1, Date.addDay_eq_some.mpr ⟨rfl, by lia⟩, hloop⟩

/-- What is counted on `(n, d)` and what is still to count make up `total`. -/
def CountingTo (c : WeekendCalendar) (total : Nat) (b : Date) (s : Nat × Date) : Prop :=
  s.2 ≤ b ∧ c.countWorking s.1 s.2 (b - s.2) = total

theorem countTurn_counting {total : Nat} {b : Date} (hb : b ≤ Date.last) {s : Nat × Date}
    (h : c.CountingTo total b s) (hcond : decide (s.2 < b) = true) :
    ∃ u, c.countTurn s = some u ∧ c.CountingTo total b u ∧ b - u.2 < b - s.2 := by
  obtain ⟨n, d⟩ := s
  have hd : d < b := by simpa using hcond
  have hday : d.addDay = some (d + 1) := Date.addDay_eq_some.mpr ⟨rfl, by lia⟩
  have hleft : b - d = b - (d + 1) + 1 := by lia
  refine ⟨(if c.isWorkingDay d then n + 1 else n, d + 1), ?_, ⟨hd, ?_⟩, ?_⟩
  · simp only [countTurn, hday, Option.map_some]
  · have hcount := h.2
    simpa only [hleft, countWorking] using hcount
  · show b - (d + 1) < b - d
    lia

theorem countLoop_total {a b : Date} (hab : a < b) (hb : b ≤ Date.last) :
    ∃ d, WhileLoop (fun s => decide (s.2 < b)) c.countTurn (0, a) (c.businessDaysBetween a b, d) := by
  have hstart : c.CountingTo (c.businessDaysBetween a b) b (0, a) := by
    refine ⟨hab.le, ?_⟩
    rw [businessDaysBetween, if_neg (Nat.not_le_of_lt hab)]
  obtain ⟨⟨n, d⟩, hloop, ⟨hle, hcount⟩, hend⟩ := WhileLoop.total (fun s => b - s.2) hstart
    fun _ h hcond => countTurn_counting hb h hcond
  obtain rfl : d = b := le_antisymm hle (by simpa using hend)
  have hn : n = c.businessDaysBetween a d := by
    rw [← hcount, Nat.sub_self]
    rfl
  exact ⟨d, hn ▸ hloop⟩

theorem businessDaysBetween_returns {a b : Date} {n : Nat} (hb : b ≤ Date.last) :
    c.BusinessDaysBetween a b n ↔ n = c.businessDaysBetween a b := by
  unfold BusinessDaysBetween
  split
  · rename_i hba
    rw [businessDaysBetween, if_pos hba]
  · rename_i hba
    obtain ⟨d, hloop⟩ := countLoop_total (c := c) (Nat.lt_of_not_le hba) hb
    constructor
    · rintro ⟨d', hloop'⟩
      exact congrArg Prod.fst (hloop'.unique hloop)
    · rintro rfl
      exact ⟨d, hloop⟩

theorem firstWorkingDay_returns {start t : Date} (hstart : start ≤ Date.last) :
    c.FirstWorkingDay start t ↔ t = firstWorkingDay c.toWorkingCalendar start ∧ t ≤ Date.last := by
  by_cases h : c.isWorkingDay start = true
  · have hfirst : firstWorkingDay c.toWorkingCalendar start = start := if_pos h
    rw [FirstWorkingDay, if_pos h, hfirst]
    constructor
    · rintro rfl
      exact ⟨rfl, hstart⟩
    · exact And.left
  · have hfirst : firstWorkingDay c.toWorkingCalendar start = c.nextWorkingDay start := if_neg h
    rw [FirstWorkingDay, if_neg h, hfirst, nextWorkingDay_returns]

/-- The call returns the `n`-th working day as long as that is a date. -/
theorem nthWorkingDay_returns {start t : Date} (n : ℕ+) (hstart : start ≤ Date.last) :
    c.NthWorkingDay start n t ↔ t = nthWorkingDay c.toWorkingCalendar start n ∧ t ≤ Date.last := by
  have back : ∀ d, c.nextWorkingDay d ≤ Date.last → d ≤ Date.last := fun d h =>
    (c.nextWorkingDay_spec d).2.1.le.trans h
  have turns : ∀ day, day ≤ Date.last → (ForLoop c.NextWorkingDay (n - 1) day t ↔
      t = c.nextWorkingDay^[n - 1] day ∧ t ≤ Date.last) := fun _ hday =>
    ForLoop.iff_iterate c.nextWorkingDay (· ≤ Date.last) (fun _ _ _ => nextWorkingDay_returns) back _ hday
  constructor
  · rintro ⟨day, hfirst, hloop⟩
    obtain ⟨rfl, hday⟩ := (firstWorkingDay_returns hstart).mp hfirst
    exact (turns _ hday).mp hloop
  · rintro ⟨rfl, ht⟩
    have hday : firstWorkingDay c.toWorkingCalendar start ≤ Date.last :=
      (firstWorkingDay_le_nthWorkingDay start n).trans ht
    exact ⟨_, (firstWorkingDay_returns hstart).mpr ⟨rfl, hday⟩, (turns _ hday).mpr ⟨rfl, ht⟩⟩

end WeekendCalendar

end Planner
