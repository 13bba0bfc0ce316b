import Planner.IsoDate
import Planner.Text

/-! The production calendar of the service: one code a day for a whole year. What it marks
as off on a weekday becomes a holiday, the weekends are the calendar's own. -/

namespace Planner

inductive CalendarError
  | http
  | yearOutOfRange
  deriving DecidableEq, Repr

/-- A weekend day or a holiday; short days and moved ones stay working. -/
def offCode : Char := '1'

/-- The codes of an answer: what is left of the text after `strip()`. -/
def codes (data : String) : List Char := stripChars data.toList

/-- The off-days an answer marks, counted from the first of January. -/
def parseYearOffdays (year : Nat) (data : String) : Except CalendarError (List Date) :=
  match Date.ofYmd? year 1 1 with
  | some start => .ok ((codes data).zipIdx.filterMap fun e => if e.1 = offCode then some (start + e.2) else none)
  | none => .error .yearOutOfRange

/-- Only the off-days of the week: weekends are the calendar's job. -/
def holidaysFromOffdays (offdays : List Date) : List Date := offdays.filter fun d => d.weekday < 5

section Client

-- the text of a successful response, year by year
variable (service : Nat → Except CalendarError String)

def fetchYearOffdays (year : Nat) : Except CalendarError (List Date) := do
  let text ← service year
  parseYearOffdays year text

def fetchSnapshotForYears (years : List Nat) : Except CalendarError WeekendCalendar := do
  let holidays ← years.foldlM (fun holidays year => do
    let offdays ← fetchYearOffdays service year
    pure (holidays ++ holidaysFromOffdays offdays)) []
  pure ⟨holidays⟩

end Client

namespace Date

def yearLength (year : Nat) : Nat := (monthLengths year).sum

theorem ofYmd_succ_year {year : Nat} (h : 1 ≤ year) : ofYmd (year + 1) 1 1 = ofYmd year 1 1 + yearLength year := by
  obtain ⟨y, rfl⟩ := Nat.exists_eq_add_of_le' h
  rw [yearLength, sum_monthLengths]
  have hdiv : ∀ b, (y + 1) / b = y / b + if (y + 1) % b = 0 then 1 else 0 := by
    intro b
    rw [Nat.succ_div]
    exact congrArg _ (if_congr (Nat.dvd_iff_mod_eq_zero ..) rfl rfl)
  have hle : y / 100 ≤ y / 4 := Nat.div_le_div_left (by decide) (by decide)
  have h100 : (y + 1) % 100 = 0 → (y + 1) % 4 = 0 := by omega
  have h400 : (y + 1) % 400 = 0 → (y + 1) % 100 = 0 := by omega
  simp only [ofYmd, Nat.add_sub_cancel, Nat.sub_self, List.take_zero, List.sum_nil, isLeap_iff]
  rw [hdiv 4, hdiv 100, hdiv 400]
  change @Eq Nat _ _
  by_cases h4 : (y + 1) % 4 = 0
  · by_cases hc : (y + 1) % 100 = 0
    · by_cases hd : (y + 1) % 400 = 0
      · simp only [h4, hc, hd, if_true, ne_eq, not_true_eq_false, or_true, and_self]
        omega
      · simp only [h4, hc, hd, if_true, if_false, ne_eq, not_true_eq_false, or_self, and_false]
        omega
    · have hd : ¬ (y + 1) % 400 = 0 := fun hd => hc (h400 hd)
      simp only [h4, hc, hd, if_true, if_false, ne_eq, not_false_eq_true, true_or, and_self]
      omega
  · have hc : ¬ (y + 1) % 100 = 0 := fun hc => h4 (h100 hc)
    have hd : ¬ (y + 1) % 400 = 0 := fun hd => hc (h400 hd)
    simp only [h4, hc, hd, if_false, false_and]
    omega

theorem ofYmd_year_mono {year year' : Nat} (hy : 1 ≤ year) (h : year ≤ year') : ofYmd year 1 1 ≤ ofYmd year' 1 1 := by
  induction h with
  | refl => exact le_rfl
  | step hle ih => exact ih.trans (by rw [Nat.succ_eq_add_one, ofYmd_succ_year (hy.trans hle)]; exact Nat.le_add_right _ _)

theorem year_unique {year year' i j : Nat} (hy : 1 ≤ year) (hy' : 1 ≤ year') (hi : i < yearLength year) (hj : j < yearLength year')
    (h : ofYmd year 1 1 + i = ofYmd year' 1 1 + j) : year = year' ∧ i = j := by
  have hlt : ∀ {y y' k l : Nat}, 1 ≤ y → k < yearLength y → y < y' → ofYmd y 1 1 + k ≠ ofYmd y' 1 1 + l := by
    intro y y' k l hy hk hlt he
    have hnext := ofYmd_year_mono (Nat.le_add_left 1 y) (Nat.succ_le_of_lt hlt)
    rw [ofYmd_succ_year hy] at hnext
    exact ne_of_lt (lt_of_lt_of_le (Nat.add_lt_add_left hk _) (hnext.trans (Nat.le_add_right _ _))) he
  rcases lt_trichotomy year year' with hlt' | rfl | hgt
  · exact absurd h (hlt hy hi hlt')
  · exact ⟨rfl, Nat.add_left_cancel h⟩
  · exact absurd h.symm (hlt hy' hj hgt)

theorem ofYmd?_january {year : Nat} (hpos : 1 ≤ year) (hle : year ≤ 9999) : ofYmd? year 1 1 = some (ofYmd year 1 1) :=
  if_pos ⟨hpos, hle, by decide, by decide, by decide, by simp [monthLengths]⟩

end Date

/-- A code for every day of a year that has dates, and space around them. -/
structure FullYear (year : Nat) (data : String) : Prop where
  year_pos : 1 ≤ year
  year_le : year ≤ 9999
  full : (codes data).length = Date.yearLength year

/-- The code of a day, counted from the first of January. -/
def codeOn (data : String) (i : Nat) : Option Char := (codes data)[i]?

/-- The calendar and the answer agree on a day. -/
def WeekendCalendar.AgreesOn (cal : WeekendCalendar) (data : String) (year i : Nat) : Prop :=
  cal.isWorkingDay (Date.ofYmd year 1 1 + i) = true ↔ codeOn data i ≠ some offCode

/-- The code has a Saturday or a Sunday worked. -/
def MovedToWeekend (data : String) (year i : Nat) : Prop :=
  5 ≤ (Date.ofYmd year 1 1 + i).weekday ∧ codeOn data i ≠ some offCode

section Snapshot

variable {service : Nat → Except CalendarError String} {answers : Nat → String} {years : List Nat}

/-- The space around the codes of an answer goes. -/
theorem codes_padded {before cs after : List Char} (hbefore : ∀ c ∈ before, isSpace c = true)
    (hafter : ∀ c ∈ after, isSpace c = true) (hcs : ∀ c ∈ cs, isSpace c = false) :
    codes (String.ofList (before ++ cs ++ after)) = cs := by
  have hkeep : ∀ {l : List Char}, (∀ c ∈ l, isSpace c = false) → l.dropWhile isSpace = l := by
    intro l hl
    rw [List.dropWhile_eq_self_iff]
    intro hlen
    rw [hl _ (List.getElem_mem hlen)]
    decide
  rw [codes, String.toList_ofList, stripChars, List.append_assoc, List.dropWhile_append_of_pos hbefore]
  cases cs with
  | nil =>
    rw [List.nil_append, List.dropWhile_eq_nil_iff.mpr hafter]
    rfl
  | cons c cs =>
    have hhead : ((c :: cs) ++ after).dropWhile isSpace = (c :: cs) ++ after :=
      List.dropWhile_cons_of_neg (by rw [hcs c List.mem_cons_self]; decide)
    rw [hhead, List.reverse_append, List.dropWhile_append_of_pos fun a ha => hafter a (List.mem_reverse.mp ha),
      hkeep fun a ha => hcs a (List.mem_reverse.mp ha), List.reverse_reverse]

theorem parseYearOffdays_ok {year : Nat} {data : String} (h : FullYear year data) :
    ∃ offdays, parseYearOffdays year data = .ok offdays ∧
      ∀ d, d ∈ offdays ↔ ∃ i < Date.yearLength year, d = Date.ofYmd year 1 1 + i ∧ codeOn data i = some offCode := by
  refine ⟨_, by rw [parseYearOffdays, Date.ofYmd?_january h.year_pos h.year_le], fun d => ?_⟩
  rw [List.mem_filterMap]
  constructor
  · rintro ⟨⟨c, i⟩, hmem, hd⟩
    obtain ⟨hc, he⟩ := Option.ite_none_right_eq_some.mp hd
    rw [List.mk_mem_zipIdx_iff_getElem?] at hmem
    refine ⟨i, ?_, (Option.some.inj he).symm, hmem.trans (congrArg some hc)⟩
    rw [← h.full]
    exact (List.getElem?_eq_some_iff.mp hmem).1
  · rintro ⟨i, -, rfl, hcode⟩
    exact ⟨(offCode, i), List.mk_mem_zipIdx_iff_getElem?.mpr hcode, if_pos rfl⟩

/-- The holidays are the weekdays that the answers mark. -/
theorem foldlM_holidays (hanswers : ∀ y ∈ years, service y = .ok (answers y)) (hfull : ∀ y ∈ years, FullYear y (answers y))
    (start : List Date) : ∃ holidays, years.foldlM (fun holidays year => do
        let offdays ← fetchYearOffdays service year
        pure (holidays ++ holidaysFromOffdays offdays)) start = Except.ok holidays ∧
      ∀ d, d ∈ holidays ↔ d ∈ start ∨ (d.weekday < 5 ∧ ∃ y ∈ years, ∃ i < Date.yearLength y,
        d = Date.ofYmd y 1 1 + i ∧ codeOn (answers y) i = some offCode) := by
  induction years generalizing start with
  | nil => exact ⟨start, rfl, by simp⟩
  | cons y years ih =>
    obtain ⟨offdays, hparse, hoff⟩ := parseYearOffdays_ok (hfull y List.mem_cons_self)
    obtain ⟨holidays, hrun, hmem⟩ := ih (fun z hz => hanswers z (List.mem_cons_of_mem _ hz))
      (fun z hz => hfull z (List.mem_cons_of_mem _ hz)) (start ++ holidaysFromOffdays offdays)
    have hfetch : fetchYearOffdays service y = .ok offdays := by
      rw [fetchYearOffdays, hanswers y List.mem_cons_self]
      exact hparse
    refine ⟨holidays, ?_, fun d => ?_⟩
    · rw [List.foldlM_cons, hfetch]
      exact hrun
    · rw [hmem, List.mem_append, holidaysFromOffdays, List.mem_filter, hoff, decide_eq_true_iff]
      rw [List.exists_mem_cons_iff, and_or_left, or_assoc, and_comm (b := d.weekday < 5)]

theorem fetchSnapshotForYears_ok (hanswers : ∀ y ∈ years, service y = .ok (answers y))
    (hfull : ∀ y ∈ years, FullYear y (answers y)) : ∃ cal, fetchSnapshotForYears service years = .ok cal ∧
      ∀ d, d ∈ cal.holidays ↔ d.weekday < 5 ∧ ∃ y ∈ years, ∃ i < Date.yearLength y,
        d = Date.ofYmd y 1 1 + i ∧ codeOn (answers y) i = some offCode := by
  obtain ⟨holidays, hrun, hmem⟩ := foldlM_holidays hanswers hfull []
  refine ⟨⟨holidays⟩, ?_, fun d => (hmem d).trans (or_iff_right List.not_mem_nil)⟩
  rw [fetchSnapshotForYears, hrun]
  rfl

theorem isWorkingDay_iff {cal : WeekendCalendar} {d : Date} :
    cal.isWorkingDay d = true ↔ d.weekday < 5 ∧ d ∉ cal.holidays := by
  have hlt : d.weekday < 7 := Nat.mod_lt _ (by decide)
  simp only [WeekendCalendar.isWorkingDay, Bool.and_eq_true, Bool.not_eq_true', Bool.or_eq_false_iff, beq_eq_false_iff_ne,
    List.contains_eq_mem, decide_eq_false_iff_not]
  refine and_congr_left' ?_
  omega

end Snapshot

/-- The calendar has a day as the service has it iff the day is no weekend day that is worked. -/
theorem snapshot_agrees_iff (service : Nat → Except CalendarError String) (answers : Nat → String) (years : List Nat)
    (hanswers : ∀ y ∈ years, service y = .ok (answers y)) (hfull : ∀ y ∈ years, FullYear y (answers y)) :
    ∃ cal, fetchSnapshotForYears service years = .ok cal ∧
      ∀ y ∈ years, ∀ i < Date.yearLength y, cal.AgreesOn (answers y) y i ↔ ¬ MovedToWeekend (answers y) y i := by
  obtain ⟨cal, hfetch, hholidays⟩ := fetchSnapshotForYears_ok hanswers hfull
  refine ⟨cal, hfetch, fun y hy i hi => ?_⟩
  have hday : Date.ofYmd y 1 1 + i ∈ cal.holidays ↔
      (Date.ofYmd y 1 1 + i).weekday < 5 ∧ codeOn (answers y) i = some offCode := by
    rw [hholidays]
    refine and_congr_right fun _ => ?_
    constructor
    · rintro ⟨z, hz, j, hj, he, hcode⟩
      obtain ⟨rfl, rfl⟩ := Date.year_unique (hfull y hy).year_pos (hfull z hz).year_pos hi hj he
      exact hcode
    · exact fun hcode => ⟨y, hy, i, hi, rfl, hcode⟩
  rw [WeekendCalendar.AgreesOn, MovedToWeekend, isWorkingDay_iff, hday]
  by_cases hweekend : (Date.ofYmd y 1 1 + i).weekday < 5
  · have hno : ¬ 5 ≤ (Date.ofYmd y 1 1 + i).weekday := Nat.not_le.mpr hweekend
    simp [hweekend, hno]
  · have hyes : 5 ≤ (Date.ofYmd y 1 1 + i).weekday := Nat.not_lt.mp hweekend
    simp [hweekend, hyes]

section Worked

/-- The codes of 2024: the weekends are off, but Saturday, the 27th of April, is worked. -/
def codes2024 : List Char := (List.range 366).map fun i =>
  if i = 117 then '4' else if 5 ≤ (Date.ofYmd 2024 1 1 + i).weekday then '1' else '0'

/-- As the service sends it, with the end of the line. -/
def answer2024 : String := String.ofList ([] ++ codes2024 ++ ['\n'])

theorem codes_answer2024 : codes answer2024 = codes2024 := by
  apply codes_padded
  · exact fun _ h => nomatch h
  · intro c hc
    rw [List.mem_singleton.mp hc]
    decide
  · intro c hc
    obtain ⟨i, -, rfl⟩ := List.mem_map.mp hc
    by_cases hworked : i = 117
    · rw [if_pos hworked]
      decide
    · rw [if_neg hworked]
      split
      · decide
      · decide

theorem fullYear2024 : FullYear 2024 answer2024 := by
  refine ⟨by decide, by decide, ?_⟩
  rw [codes_answer2024]
  decide +kernel

theorem snapshot_agrees_iff_2024 : ∃ cal, fetchSnapshotForYears (fun _ => .ok answer2024) [2024] = .ok cal ∧
    ∀ y ∈ [2024], ∀ i < Date.yearLength y, cal.AgreesOn answer2024 y i ↔ ¬ MovedToWeekend answer2024 y i :=
  snapshot_agrees_iff (fun _ => .ok answer2024) (fun _ => answer2024) [2024] (fun _ _ => rfl) fun y hy => by
    obtain rfl := List.mem_singleton.mp hy
    exact fullYear2024

/-- The worked Saturday is off in the calendar. -/
theorem worked_saturday_off : FullYear 2024 answer2024 ∧ 117 < Date.yearLength 2024 ∧
    ∃ cal, fetchSnapshotForYears (fun _ => .ok answer2024) [2024] = .ok cal ∧ ¬ cal.AgreesOn answer2024 2024 117 := by
  obtain ⟨cal, hfetch, -⟩ := @fetchSnapshotForYears_ok (fun _ => .ok answer2024) (fun _ => answer2024) [2024] (fun _ _ => rfl)
    fun y hy => by
      obtain rfl := List.mem_singleton.mp hy
      exact fullYear2024
  refine ⟨fullYear2024, by decide +kernel, cal, hfetch, fun hagrees => ?_⟩
  have hcode : codeOn answer2024 117 = some '4' := by
    rw [codeOn, codes_answer2024]
    decide +kernel
  have hworking := hagrees.mpr (by rw [hcode]; decide)
  have hweekend : ¬ (Date.ofYmd 2024 1 1 + 117).weekday < 5 := by decide +kernel
  exact hweekend (isWorkingDay_iff.mp hworking).1

end Worked

end Planner
