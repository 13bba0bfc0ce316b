import Planner.Workdays
import Planner.WorkdayLoops
import Mathlib.Data.Nat.Nth
import Mathlib.Algebra.Order.Interval.Finset.SuccPred
import Mathlib.Order.Interval.Finset.Nat

/-! Working days by number. How many come before a date and which one has a
given number are adjoint, and every answer of the calendar is one of the two. -/

namespace Planner

section Numbered

variable (cal : WorkingCalendar)

def WorkingCalendar.Works (d : Date) : Prop := cal.isWorkingDay d = true

instance : DecidablePred cal.Works := fun d => inferInstanceAs (Decidable (cal.isWorkingDay d = true))

variable {cal}

theorem works_infinite : (Set.ofPred cal.Works).Infinite :=
  Set.infinite_of_forall_exists_gt fun d => ⟨cal.nextWorkingDay d, cal.next_working d, cal.lt_next d⟩

theorem nth_works_of_least {d e : Date} (h : IsLeast {i | cal.Works i ∧ d ≤ i} e) :
    Nat.nth cal.Works (Nat.count cal.Works d) = e := by
  rw [Nat.nth_count_eq_sInf]
  exact h.csInf_eq

theorem nextWorkingDay_eq_nth (d : Date) :
    cal.nextWorkingDay d = Nat.nth cal.Works (Nat.count cal.Works (d + 1)) := by
  symm
  apply nth_works_of_least
  exact ⟨⟨cal.next_working d, cal.lt_next d⟩, fun e he => cal.next_least d e he.2 he.1⟩

theorem firstWorkingDay_eq_nth (start : Date) :
    firstWorkingDay cal start = Nat.nth cal.Works (Nat.count cal.Works start) := by
  symm
  apply nth_works_of_least
  exact ⟨⟨firstWorkingDay_working start, le_firstWorkingDay start⟩, fun e he => firstWorkingDay_le he.2 he.1⟩

theorem workday_eq_nth (start : Date) (n : Nat) :
    workday cal start n = Nat.nth cal.Works (Nat.count cal.Works start + n) := by
  induction n with
  | zero => exact firstWorkingDay_eq_nth start
  | succ n ih => rw [workday_succ, ih, nextWorkingDay_eq_nth, Nat.count_nth_succ_of_infinite works_infinite, Nat.add_assoc]

theorem count_workday (start : Date) (n : Nat) :
    Nat.count cal.Works (workday cal start n) = Nat.count cal.Works start + n := by
  rw [workday_eq_nth, Nat.count_nth_of_infinite works_infinite]

theorem count_add_card_Ico {a b : Date} (h : a ≤ b) :
    Nat.count cal.Works a + ((Finset.Ico a b).filter cal.Works).card = Nat.count cal.Works b := by
  induction b, h using Nat.le_induction with
  | base => simp
  | succ b h ih =>
    rw [Nat.count_succ, ← ih, ← Finset.insert_Ico_right_eq_Ico_add_one h, Finset.filter_insert]
    split
    · rw [Finset.card_insert_of_notMem (by simp), Nat.add_assoc]
    · rfl

/-- The start and the answer are both counted. -/
theorem card_Icc_workday (start : Date) (n : Nat) :
    ((Finset.Icc start (workday cal start n)).filter cal.Works).card = n + 1 := by
  have hworks : cal.Works (workday cal start n) := workday_working start n
  have hle : start ≤ workday cal start n + 1 := Nat.le_succ_of_le (le_workday start n)
  have hcard : Nat.count cal.Works start + _ = _ := count_add_card_Ico hle
  rw [Nat.count_succ, if_pos hworks, count_workday, Finset.Ico_add_one_right_eq_Icc] at hcard
  omega

theorem nthWorkingDay_strictMono (start : Date) : StrictMono (nthWorkingDay cal start) := by
  intro m n hmn
  have hlt : (m : Nat) < n := hmn
  have hm := m.pos
  rw [nthWorkingDay_eq_workday, nthWorkingDay_eq_workday]
  apply workday_strictMono
  omega

end Numbered

namespace WeekendCalendar

variable {c : WeekendCalendar}

theorem countWorking_eq (n : Nat) (d : Date) (days : Nat) :
    c.countWorking n d days + Nat.count c.toWorkingCalendar.Works d =
      n + Nat.count c.toWorkingCalendar.Works (d + days) := by
  induction days generalizing n d with
  | zero => rfl
  | succ days ih =>
    have hdays : d + (days + 1) = d + 1 + days := by lia
    rw [countWorking, hdays]
    have hh := ih (if c.isWorkingDay d then n + 1 else n) (d + 1)
    rw [Nat.count_succ] at hh
    by_cases hd : c.isWorkingDay d = true
    · have hworks : c.toWorkingCalendar.Works d := hd
      rw [if_pos hd, if_pos hworks] at hh
      rw [if_pos hd]
      omega
    · have hoff : ¬ c.toWorkingCalendar.Works d := hd
      rw [if_neg hd, if_neg hoff] at hh
      rw [if_neg hd]
      omega

theorem businessDaysBetween_eq (a b : Date) :
    c.businessDaysBetween a b =
      Nat.count c.toWorkingCalendar.Works b - Nat.count c.toWorkingCalendar.Works a := by
  unfold businessDaysBetween
  split
  · rename_i h
    exact (Nat.sub_eq_zero_of_le (Nat.count_monotone _ h)).symm
  · rename_i h
    have hh := c.countWorking_eq 0 a (b - a)
    rw [Nat.add_sub_of_le (Nat.le_of_not_le h)] at hh
    lia

/-- What the docstring of `business_days_between` says. -/
theorem businessDaysBetween_eq_card (a b : Date) :
    c.businessDaysBetween a b = ((Finset.Ico a b).filter c.toWorkingCalendar.Works).card := by
  rw [businessDaysBetween_eq]
  rcases Nat.le_total a b with h | h
  · have hcard : Nat.count c.toWorkingCalendar.Works a + _ = _ := count_add_card_Ico h
    omega
  · rw [Nat.sub_eq_zero_of_le (Nat.count_monotone _ h), Finset.Ico_eq_empty_of_le h]
    rfl

example : businessDaysBetween ⟨[Date.ofYmd 2026 6 3]⟩ (Date.ofYmd 2026 6 1) (Date.ofYmd 2026 6 8) = 4 := by decide

/-- A date comes no later than the `n`-th working day iff fewer than `n` lie before it. -/
theorem le_nthWorkingDay_iff (start t : Date) (n : ℕ+) :
    t ≤ nthWorkingDay c.toWorkingCalendar start n ↔ c.businessDaysBetween start t < n := by
  have hn := n.pos
  rw [nthWorkingDay_eq_workday, workday_eq_nth, ← Nat.count_le_iff_le_nth works_infinite,
    businessDaysBetween_eq]
  omega

theorem nextWorkingDay_isLeast (d : Date) :
    IsLeast {e | d < e ∧ c.isWorkingDay e = true} (c.nextWorkingDay d) := by
  obtain ⟨hworking, hlt, hleast⟩ := c.nextWorkingDay_spec d
  exact ⟨⟨hlt, hworking⟩, fun e he => hleast e he.1 he.2⟩

theorem businessDaysBetween_nth (start : Date) (n : ℕ+) :
    c.businessDaysBetween start (nthWorkingDay c.toWorkingCalendar start n) = n - 1 := by
  rw [businessDaysBetween_eq, nthWorkingDay_eq_workday, count_workday, Nat.add_sub_cancel_left]

theorem card_Icc_nthWorkingDay (start : Date) (n : ℕ+) :
    ((Finset.Icc start (nthWorkingDay c.toWorkingCalendar start n)).filter
      fun e => c.isWorkingDay e = true).card = n := by
  have hcard : ((Finset.Icc start (nthWorkingDay c.toWorkingCalendar start n)).filter
      c.toWorkingCalendar.Works).card = n - 1 + 1 := card_Icc_workday start (n - 1)
  rw [Nat.sub_add_cancel n.pos] at hcard
  exact hcard

/-- What the three loops promise each other. -/
structure Consistent (c : WeekendCalendar) : Prop where
  next_returns : ∀ d t, c.NextWorkingDay d t ↔ t = c.nextWorkingDay d ∧ t ≤ Date.last
  next_least : ∀ d, IsLeast {e | d < e ∧ c.isWorkingDay e = true} (c.nextWorkingDay d)
  nth_returns : ∀ s ≤ Date.last, ∀ n t, c.NthWorkingDay s n t ↔
    t = nthWorkingDay c.toWorkingCalendar s n ∧ t ≤ Date.last
  nth_works : ∀ s n, c.isWorkingDay (nthWorkingDay c.toWorkingCalendar s n) = true
  le_nth : ∀ s n, s ≤ nthWorkingDay c.toWorkingCalendar s n
  nth_card : ∀ s (n : ℕ+), ((Finset.Icc s (nthWorkingDay c.toWorkingCalendar s n)).filter
    fun e => c.isWorkingDay e = true).card = n
  nth_strictMono : ∀ s, StrictMono (nthWorkingDay c.toWorkingCalendar s)
  nth_mono : ∀ n, Monotone fun s => nthWorkingDay c.toWorkingCalendar s n
  between_returns : ∀ a, ∀ b ≤ Date.last, ∀ n, c.BusinessDaysBetween a b n ↔ n = c.businessDaysBetween a b
  between_nth : ∀ s (n : ℕ+),
    c.businessDaysBetween s (nthWorkingDay c.toWorkingCalendar s n) = n - 1

theorem workdays_consistent (c : WeekendCalendar) : c.Consistent where
  next_returns _ _ := nextWorkingDay_returns
  next_least := nextWorkingDay_isLeast
  nth_returns _ hs n _ := nthWorkingDay_returns n hs
  nth_works s n := (nthWorkingDay_working s n : c.toWorkingCalendar.Works _)
  le_nth s n := le_workday s (n - 1)
  nth_card := card_Icc_nthWorkingDay
  nth_strictMono := nthWorkingDay_strictMono
  nth_mono n _ _ h := workday_mono_left h (n - 1)
  between_returns _ _ hb _ := businessDaysBetween_returns hb
  between_nth := businessDaysBetween_nth

end WeekendCalendar

end Planner
