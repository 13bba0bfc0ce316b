import Planner.Calendar

/-! Dates as text. A day goes to its year, month and day and back, and so does
the text of a date between `date.min` and `date.max`. -/

namespace Planner.Date

/-- `date.min.toordinal()` and `date.max.toordinal()`. -/
def InRange (d : Date) : Prop := 1 ≤ d ∧ d ≤ 3652059

instance (d : Date) : Decidable d.InRange := inferInstanceAs (Decidable (_ ∧ _))

/-- `int()` of ASCII digits. -/
def number (cs : List Char) : Option Nat :=
  if cs.all Char.isDigit then some (Nat.ofDigitChars 10 cs 0) else none

/-- `date(year, month, day)` raises on a month or a day that does not exist. -/
def ofYmd? (year month day : Nat) : Option Date :=
  if 1 ≤ year ∧ year ≤ 9999 ∧ 1 ≤ month ∧ month ≤ 12 ∧ 1 ≤ day ∧
      day ≤ (monthLengths year).getD (month - 1) 0 then
    some (ofYmd year month day)
  else none

/-- `date.fromisoformat` on the form that `isoformat` writes. -/
def fromisoformat (s : String) : Option Date :=
  let cs := s.toList
  if cs.length = 10 ∧ cs[4]? = some '-' ∧ cs[7]? = some '-' then do
    let year ← number (cs.take 4)
    let month ← number ((cs.drop 5).take 2)
    let day ← number (cs.drop 8)
    ofYmd? year month day
  else none

section Ymd

theorem splitMonth_spec (lens : List Nat) (m n : Nat) (h : n < lens.sum) :
    ∃ i len, lens[i]? = some len ∧ splitMonth lens m n = (m + i, n - (lens.take i).sum + 1) ∧
      (lens.take i).sum ≤ n ∧ n - (lens.take i).sum < len := by
  induction lens generalizing m n with
  | nil => simp at h
  | cons len lens ih =>
    by_cases hn : n < len
    · exact ⟨0, len, rfl, by simp [splitMonth, hn], by simp, by simpa using hn⟩
    · have hrest : n - len < lens.sum := by
        rw [List.sum_cons] at h
        omega
      obtain ⟨i, l, hi, hs, hle, hlt⟩ := ih (m + 1) (n - len) hrest
      refine ⟨i + 1, l, by simpa using hi, ?_, ?_, ?_⟩
      · simp only [splitMonth, hn, if_false, hs, List.take_succ_cons, List.sum_cons, Prod.mk.injEq]
        omega
      · rw [List.take_succ_cons, List.sum_cons]
        omega
      · rw [List.take_succ_cons, List.sum_cons]
        omega

theorem sum_monthLengths (year : Nat) :
    (monthLengths year).sum = if isLeap year then 366 else 365 := by
  cases h : isLeap year <;> simp [monthLengths, h]

/-- A date that exists, by its parts. -/
structure IsDay (year month day : Nat) (d : Date) : Prop where
  year_pos : 1 ≤ year
  year_le : year ≤ 9999
  month_pos : 1 ≤ month
  month_le : month ≤ 12
  day_pos : 1 ≤ day
  day_le : day ≤ (monthLengths year).getD (month - 1) 0
  eq : ofYmd year month day = d

theorem IsDay.ofYmd? {year month day : Nat} {d : Date} (h : IsDay year month day d) :
    ofYmd? year month day = some d := by
  rw [Date.ofYmd?, if_pos ⟨h.year_pos, h.year_le, h.month_pos, h.month_le, h.day_pos, h.day_le⟩, h.eq]

/-- The days before a year. -/
def before (year : Nat) : Nat :=
  let y := year - 1
  y * 365 + y / 4 - y / 100 + y / 400

theorem before_eq {n400 n100 n4 n1 : Nat} (h100 : n100 ≤ 3) (h4 : n4 ≤ 24) (h1 : n1 ≤ 3) :
    before (n400 * 400 + n100 * 100 + n4 * 4 + n1 + 1) =
      n400 * 146097 + n100 * 36524 + n4 * 1461 + n1 * 365 := by
  have hy4 : (n400 * 400 + n100 * 100 + n4 * 4 + n1) / 4 = n400 * 100 + n100 * 25 + n4 := by omega
  have hy100 : (n400 * 400 + n100 * 100 + n4 * 4 + n1) / 100 = n400 * 4 + n100 := by omega
  have hy400 : (n400 * 400 + n100 * 100 + n4 * 4 + n1) / 400 = n400 := by omega
  rw [before, Nat.add_sub_cancel, hy4, hy100, hy400]
  omega

theorem isDay_splitMonth {year n : Nat} {d : Date} (hpos : 1 ≤ year) (hle : year ≤ 9999) (hn : n < 365)
    (hd : before year + n + 1 = d) :
    IsDay year (splitMonth (monthLengths year) 1 n).1 (splitMonth (monthLengths year) 1 n).2 d := by
  have hsum : n < (monthLengths year).sum := by
    rw [sum_monthLengths]
    split <;> omega
  obtain ⟨i, len, hi, hs, hle', hlt⟩ := splitMonth_spec _ 1 n hsum
  have hi12 : i < 12 := (List.getElem?_eq_some_iff.mp hi).1
  rw [hs]
  refine ⟨hpos, hle, by omega, by omega, by omega, ?_, ?_⟩
  · rw [Nat.add_sub_cancel_left, List.getD_eq_getElem?_getD, hi, Option.getD_some]
    omega
  · rw [ofYmd, Nat.add_sub_cancel_left, ← hd]
    change before year + _ + _ = _
    omega

theorem isLeap_iff {year : Nat} : isLeap year = true ↔ year % 4 = 0 ∧ (year % 100 ≠ 0 ∨ year % 400 = 0) := by
  simp [isLeap]

theorem isDay_december {year : Nat} {d : Date} (hpos : 1 ≤ year) (hle : year ≤ 9999)
    (hleap : isLeap year = true) (hd : before year + 366 = d) : IsDay year 12 31 d := by
  refine ⟨hpos, hle, by decide, by decide, by decide, by simp [monthLengths], ?_⟩
  have hsum : ((monthLengths year).take (12 - 1)).sum = 335 := by simp [monthLengths, hleap]
  rw [ofYmd, hsum, ← hd]
  rfl

theorem isDay_toYmd {d : Date} (h : d.InRange) : IsDay d.toYmd.1 d.toYmd.2.1 d.toYmd.2.2 d := by
  obtain ⟨hpos, hle⟩ := h
  obtain ⟨n, rfl⟩ : ∃ n : Nat, d = n + 1 := ⟨d - 1, (Nat.sub_add_cancel hpos).symm⟩
  have hn : n < 3652059 := hle
  unfold toYmd
  dsimp only
  rw [Nat.add_sub_cancel]
  obtain ⟨r400, hr400⟩ : ∃ r, r = n % 146097 := ⟨_, rfl⟩
  obtain ⟨n400, hn400⟩ : ∃ q, q = n / 146097 := ⟨_, rfl⟩
  obtain ⟨r100, hr100⟩ : ∃ r, r = r400 % 36524 := ⟨_, rfl⟩
  obtain ⟨n100, hn100⟩ : ∃ q, q = r400 / 36524 := ⟨_, rfl⟩
  obtain ⟨r4, hr4⟩ : ∃ r, r = r100 % 1461 := ⟨_, rfl⟩
  obtain ⟨n4, hn4⟩ : ∃ q, q = r100 / 1461 := ⟨_, rfl⟩
  obtain ⟨r1, hr1⟩ : ∃ r, r = r4 % 365 := ⟨_, rfl⟩
  obtain ⟨n1, hn1⟩ : ∃ q, q = r4 / 365 := ⟨_, rfl⟩
  obtain ⟨y, hy⟩ : ∃ y, y = n400 * 400 + n100 * 100 + n4 * 4 + n1 := ⟨_, rfl⟩
  rw [← hr400, ← hn400, ← hn100, ← hr100, ← hn4, ← hr4, ← hn1, ← hr1, ← hy]
  have hsplit : n = n400 * 146097 + n100 * 36524 + n4 * 1461 + n1 * 365 + r1 := by omega
  by_cases hlast : n1 = 4 ∨ n100 = 4
  · rw [if_pos hlast, Nat.add_sub_cancel]
    refine isDay_december (by omega) (by omega) ?_ ?_
    · rw [isLeap_iff]
      omega
    · rcases hlast with rfl | rfl
      · have hlt : n100 ≤ 3 ∧ n4 ≤ 24 := by omega
        have hb : before y = n400 * 146097 + n100 * 36524 + n4 * 1461 + 3 * 365 := by
          rw [← before_eq hlt.1 hlt.2 le_rfl, hy]
        rw [hb]
        omega
      · obtain ⟨rfl, rfl, rfl⟩ : n4 = 0 ∧ n1 = 0 ∧ r1 = 0 := by omega
        have hlast : y = n400 * 400 + 3 * 100 + 24 * 4 + 3 + 1 := by omega
        have hb : before y = n400 * 146097 + 3 * 36524 + 24 * 1461 + 3 * 365 := by
          rw [← @before_eq n400 3 24 3 le_rfl le_rfl le_rfl, hlast]
        rw [hb]
        omega
  · rw [if_neg hlast]
    have hb : before (y + 1) = n400 * 146097 + n100 * 36524 + n4 * 1461 + n1 * 365 := by
      rw [← before_eq (by omega) (by omega) (by omega), hy]
    refine isDay_splitMonth (by omega) (by omega) (by omega) ?_
    rw [hb]
    omega

theorem ofYmd?_toYmd {d : Date} (h : d.InRange) : ofYmd? d.toYmd.1 d.toYmd.2.1 d.toYmd.2.2 = some d :=
  (isDay_toYmd h).ofYmd?

theorem sum_take_add_le {lens : List Nat} {i n : Nat} (h : n ≤ lens.getD i 0) : (lens.take i).sum + n ≤ lens.sum := by
  induction lens generalizing i with
  | nil => simpa using h
  | cons len lens ih =>
    cases i with
    | zero =>
      rw [List.getD_cons_zero] at h
      rw [List.take_zero, List.sum_nil, List.sum_cons]
      omega
    | succ i =>
      have hrest := ih h
      rw [List.take_succ_cons, List.sum_cons, List.sum_cons]
      omega

theorem inRange_of_ofYmd? {year month day : Nat} {d : Date} (h : ofYmd? year month day = some d) : d.InRange := by
  rw [ofYmd?] at h
  split at h
  · rename_i hparts
    obtain ⟨hpos, hle, -, -, hday, hlen⟩ := hparts
    obtain rfl := Option.some.inj h
    have hsum := sum_take_add_le hlen
    rw [sum_monthLengths] at hsum
    obtain ⟨y, rfl⟩ : ∃ y, year = y + 1 := ⟨year - 1, (Nat.sub_add_cancel hpos).symm⟩
    change 1 ≤ y * 365 + y / 4 - y / 100 + y / 400 + ((monthLengths (y + 1)).take (month - 1)).sum + day ∧
      y * 365 + y / 4 - y / 100 + y / 400 + ((monthLengths (y + 1)).take (month - 1)).sum + day ≤ 3652059
    -- the last year there is has 365 days
    by_cases hlast : y = 9998
    · subst hlast
      rw [if_neg (by decide)] at hsum
      omega
    · have hall : (if isLeap (y + 1) then 366 else 365) ≤ 366 := by split <;> decide
      omega
  · cases h

end Ymd

section Text

theorem toList_pushn (s : String) (c : Char) (n : Nat) :
    (s.pushn c n).toList = s.toList ++ List.replicate n c := by
  rw [String.pushn_eq_repeat_push]
  induction n with
  | zero => simp [Nat.repeat]
  | succ n ih => simp [Nat.repeat, ih, List.replicate_succ']

theorem toList_pad (width n : Nat) :
    (pad width n).toList = List.replicate (width - (Nat.toDigits 10 n).length) '0' ++ Nat.toDigits 10 n := by
  have hlen : (toString n).length = (Nat.toDigits 10 n).length := by
    rw [← String.length_toList, Nat.toString_eq_repr, Nat.toList_repr]
  rw [pad, hlen, String.toList_append, toList_pushn, Nat.toString_eq_repr, Nat.toList_repr]
  rfl

theorem number_pad (width n : Nat) : number (pad width n).toList = some n := by
  rw [number, toList_pad, if_pos, Nat.ofDigitChars_append, Nat.ofDigitChars_replicate_zero]
  · simp
  · simp only [List.all_append, Bool.and_eq_true, List.all_eq_true]
    exact ⟨fun c hc => (List.eq_of_mem_replicate hc) ▸ rfl, fun c hc =>
      Nat.isDigit_of_mem_toDigits (by decide) (by decide) hc⟩

theorem length_pad (width : Nat) {n : Nat} (hw : 0 < width) (hn : n < 10 ^ width) :
    (pad width n).toList.length = width := by
  have hlen := (Nat.length_toDigits_le_iff (b := 10) (by decide) hw).mpr hn
  rw [toList_pad, List.length_append, List.length_replicate]
  omega

theorem monthLengths_le (year month : Nat) : (monthLengths year).getD month 0 ≤ 31 := by
  rw [List.getD_eq_getElem?_getD]
  cases h : (monthLengths year)[month]? with
  | none => exact Nat.zero_le _
  | some len =>
    have hm := List.mem_of_getElem? h
    simp only [monthLengths, List.mem_cons, List.not_mem_nil, or_false] at hm
    rcases hm with rfl | rfl | rfl | rfl | rfl | rfl | rfl | rfl | rfl | rfl | rfl | rfl
    all_goals first | decide | (simp only [Option.getD_some]; split <;> decide)

/-- Text of the form `YYYY-MM-DD` is read by its three numbers. -/
theorem fromisoformat_of_parts {s : String} {y m d : List Char} (hy : y.length = 4) (hm : m.length = 2)
    (hd : d.length = 2) (hs : s.toList = y ++ '-' :: (m ++ '-' :: d)) :
    fromisoformat s = (number y).bind fun year => (number m).bind fun month =>
      (number d).bind fun day => ofYmd? year month day := by
  have hform : s.toList.length = 10 ∧ s.toList[4]? = some '-' ∧ s.toList[7]? = some '-' := by
    rw [hs]
    refine ⟨by simp [hy, hm, hd], ?_, ?_⟩
    · rw [List.getElem?_append_right hy.le, hy]
      rfl
    · rw [List.getElem?_append_right (by omega), hy, List.getElem?_cons_succ,
        List.getElem?_append_right (by omega), hm]
      rfl
  have hdrop : s.toList.drop 5 = m ++ '-' :: d := by
    rw [hs, List.append_cons, List.drop_left' (by simp [hy])]
  have hrest : s.toList.drop 8 = d := by
    rw [hs, List.append_cons, List.append_cons _ _ d, ← List.append_assoc, List.drop_left' (by simp [hy, hm])]
  rw [fromisoformat, if_pos hform, hdrop, hrest, hs, List.take_left' hy, List.take_left' hm]
  rfl

theorem fromisoformat_isoformat {d : Date} (h : d.InRange) : fromisoformat d.isoformat = some d := by
  have hd := isDay_toYmd h
  obtain ⟨year, month, day, hymd⟩ : ∃ year month day, d.toYmd = (year, month, day) := ⟨_, _, _, rfl⟩
  rw [hymd] at hd
  have hy := length_pad 4 (by decide) (Nat.lt_of_le_of_lt hd.year_le (by decide))
  have hm := length_pad 2 (by decide) (Nat.lt_of_le_of_lt hd.month_le (by decide))
  have hday := length_pad 2 (by decide)
    (Nat.lt_of_le_of_lt (hd.day_le.trans (monthLengths_le _ _)) (by decide))
  have htext : d.isoformat.toList =
      (pad 4 year).toList ++ '-' :: ((pad 2 month).toList ++ '-' :: (pad 2 day).toList) := by
    simp [isoformat, hymd]
  rw [fromisoformat_of_parts hy hm hday htext, number_pad, number_pad, number_pad]
  exact hd.ofYmd?

theorem inRange_of_fromisoformat {s : String} {d : Date} (h : fromisoformat s = some d) : d.InRange := by
  rw [fromisoformat] at h
  split at h
  · obtain ⟨year, -, h⟩ := Option.bind_eq_some_iff.mp h
    obtain ⟨month, -, h⟩ := Option.bind_eq_some_iff.mp h
    obtain ⟨day, -, h⟩ := Option.bind_eq_some_iff.mp h
    exact inRange_of_ofYmd? h
  · cases h

end Text

end Planner.Date
