import Planner.BasicParser

/-! What dates the offline parser finds in a text. Three patterns are tried in
turn, and the first match of the first that matches decides alone: it may stand
on something that is no date, and then a date further on is not looked at. -/

namespace Planner

/-- The cases of the month names, and the number of the month. -/
def monthForms : List (List Char × Nat) :=
  [ ("январ", ["ь", "я", "ю", "ем", "ём", "е"], 1), ("феврал", ["ь", "я", "ю", "ем", "ём", "е"], 2),
    ("март", ["", "а", "у", "ом", "е"], 3), ("апрел", ["ь", "я", "ю", "ем", "е"], 4),
    ("ма", ["й", "я", "ю", "ем", "е"], 5), ("июн", ["ь", "я", "ю", "ем", "е"], 6),
    ("июл", ["ь", "я", "ю", "ем", "е"], 7), ("август", ["", "а", "у", "ом", "е"], 8),
    ("сентябр", ["ь", "я", "ю", "ем", "ём", "е"], 9), ("октябр", ["ь", "я", "ю", "ем", "ём", "е"], 10),
    ("ноябр", ["ь", "я", "ю", "ем", "ём", "е"], 11), ("декабр", ["ь", "я", "ю", "ем", "ём", "е"], 12)].flatMap
    fun (stem, endings, month) => endings.map fun ending => (stem.toList ++ ending.toList, month)

/-- What the forms of a date leave open. -/
structure Reading where
  /-- The fewest digits of the day and of the month in `DD.MM`. -/
  least : Nat
  least_pos : 1 ≤ least
  /-- A number goes on where this stands between two digits. -/
  joins : Char → Bool
  joins_point : joins '.' = true

/-- A day and a month of one or two digits, and decimals with a point or a comma. -/
def Reading.plain : Reading := ⟨1, le_refl 1, oneOf ".,", rfl⟩

/-- What Unicode says of words. -/
structure CharTables.Lawful (U : CharTables) : Prop where
  digit_word : ∀ c, (U.digit c).isSome = true → U.isWord c = true
  letter_word : ∀ c, U.isCyrillic c = true → U.isWord c = true
  blank_not_word : ∀ c, isSpace c = true → U.isWord c = false
  point_not_word : U.isWord '.' = false

theorem CharTables.plain_lawful : CharTables.plain.Lawful where
  digit_word c h := by
    have hdigit : c.isDigit = true := by
      by_contra hne
      simp [CharTables.plain, hne] at h
    simp [CharTables.plain, Char.isAlphanum, hdigit]
  letter_word c h := by
    have hletters : "абвгдежзийклмнопрстуфхцчшщъыьэюяё".toList.all
        (fun l => decide (0x430 ≤ (lowerChar l).toNat ∧ (lowerChar l).toNat ≤ 0x451)) = true := by decide +kernel
    obtain ⟨l, hl, hsame⟩ := List.any_eq_true.mp h
    obtain ⟨hlo, hhi⟩ := of_decide_eq_true (List.all_eq_true.mp hletters l hl)
    rw [← (beq_iff_eq.mp hsame : lowerChar c = lowerChar l)] at hlo hhi
    have hrange : 0x400 ≤ c.toNat ∧ c.toNat ≤ 0x45f := by
      simp only [lowerChar] at hlo hhi
      split at hlo
      · rw [toNat_ofNat (by omega)] at hlo
        omega
      · split at hlo
        · omega
        · rename_i hlatin hyo
          rw [if_neg hlatin, if_neg hyo] at hhi
          omega
    simp [CharTables.plain, hrange.1, hrange.2]
  blank_not_word c h := by
    simp only [isSpace, Bool.or_eq_true, Bool.and_eq_true, decide_eq_true_eq, beq_iff_eq] at h
    have hne : c ≠ '_' := by
      rintro rfl
      revert h
      decide
    have halnum : c.isAlphanum = false := by
      rw [Bool.eq_false_iff]
      intro hc
      delta Char.isAlphanum Char.isAlpha Char.isUpper Char.isLower Char.isDigit at hc
      simp only [Bool.or_eq_true, Bool.and_eq_true, decide_eq_true_eq, UInt32.le_iff_toNat_le, ge_iff_le] at hc
      have hval : c.val.toNat = c.toNat := rfl
      simp only [hval, Char.reduceVal, UInt32.reduceToNat] at hc
      omega
    have hcyr : ¬ (0x400 ≤ c.toNat ∧ c.toNat ≤ 0x45f) := by omega
    simp [CharTables.plain, hne, halnum]
    omega
  point_not_word := by decide

section Expressions

variable (U : CharTables) (R : Reading) (year : Nat)

/-- An expression for a date, the year given where it writes none. -/
inductive Expresses : List Char → Date → Prop
  | iso {y m d : List Char} {date : Date} (hy : U.Number 4 4 y) (hm : U.Number 2 2 m) (hd : U.Number 2 2 d)
      (hdate : Date.ofYmd? (U.value y) (U.value m) (U.value d) = some date) :
      Expresses (y ++ '-' :: (m ++ '-' :: d)) date
  | dayMonth {d m : List Char} {date : Date} (hd : U.Number R.least 2 d) (hm : U.Number R.least 2 m)
      (hdate : Date.ofYmd? year (U.value m) (U.value d) = some date) : Expresses (d ++ '.' :: m) date
  | dayMonthYear {d m y : List Char} {date : Date} (hd : U.Number R.least 2 d) (hm : U.Number R.least 2 m)
      (hy : U.Number 4 4 y) (hdate : Date.ofYmd? (U.value y) (U.value m) (U.value d) = some date) :
      Expresses (d ++ '.' :: (m ++ '.' :: y)) date
  | named {d gap word : List Char} {month : Nat} {date : Date} (hd : U.Number 1 2 d) (hgap : gap ≠ [])
      (hblank : ∀ c ∈ gap, isSpace c = true) (hword : word ≠ []) (hletter : ∀ c ∈ word, U.isCyrillic c = true)
      (hform : (U.lower word, month) ∈ monthForms) (hdate : Date.ofYmd? year month (U.value d) = some date) :
      Expresses (d ++ (gap ++ word)) date

/-- As a whole token: no part of a word, and no number goes on into it or out of it. -/
structure Stands (pre body post : List Char) : Prop where
  before : ∀ c, pre.getLast? = some c → U.isWord c = false
  after : ∀ c, post.head? = some c → U.isWord c = false
  opens : ∀ p d c, pre = p ++ [d, c] → R.joins c = true → U.digit d = none
  closes : ∀ c d q, post = c :: d :: q → R.joins c = true → (∃ e, body.getLast? = some e ∧ (U.digit e).isSome = true) →
    U.digit d = none

/-- An expression for the date stands right after the first part of the text. -/
def StandsAt (pre post : List Char) (date : Date) : Prop :=
  ∃ body rest, post = body ++ rest ∧ Expresses U R year body date ∧ Stands U R pre body rest

def Contains (text : List Char) (date : Date) : Prop :=
  ∃ pre post, pre ++ post = text ∧ StandsAt U R year pre post date

end Expressions

/-- The reader finds dates and only dates. -/
structure ReadsRightly (U : CharTables) (R : Reading) (text : List Char) (today : Date) : Prop where
  sound : ∀ date, parseDate U text today = some date → Contains U R today.toYmd.1 text date
  complete : (∃ date, Contains U R today.toYmd.1 text date) → ∃ date, parseDate U text today = some date

/-! The three patterns as readers of one kind of thing: the year, the month and
the day, or nothing where the word is no month. -/

inductive DateForm
  | iso
  | dotted
  | named
  deriving DecidableEq

namespace DateForm

/-- The forms that are tried before. -/
def earlier : DateForm → List DateForm
  | iso => []
  | dotted => [iso]
  | named => [iso, dotted]

def takes (U : CharTables) (year : Nat) (prev : Option Char) (cs : List Char) :
    DateForm → Option (Option (Nat × Nat × Nat))
  | iso => (U.isoAt prev cs).map some
  | dotted => (U.ddmmAt prev cs).map fun (day, month, given) => some (given.getD year, month, day)
  | named => (U.dayMonthAt prev cs).map fun (day, word) => (monthNum U word).map fun month => (year, month, day)

end DateForm

/-- The date that the numbers make. -/
def dayOf (numbers : Option (Nat × Nat × Nat)) : Option Date :=
  numbers.bind fun (year, month, day) => Date.ofYmd? year month day

/-- The place that decides, by which form and with which numbers. -/
structure Decides (U : CharTables) (year : Nat) (text : List Char) (form : DateForm) (pre post : List Char)
    (numbers : Option (Nat × Nat × Nat)) : Prop where
  first : FirstAt (fun prev cs => form.takes U year prev cs) text pre post numbers
  earlier : ∀ f ∈ form.earlier, Nowhere (fun prev cs => f.takes U year prev cs) text

section Deciding

variable {U : CharTables} {today : Date} {text : List Char}

theorem takes_nowhere_iff (form : DateForm) (year : Nat) :
    Nowhere (fun prev cs => form.takes U year prev cs) text ↔
      match form with
      | .iso => search U.isoAt none text = none
      | .dotted => search U.ddmmAt none text = none
      | .named => search U.dayMonthAt none text = none := by
  rw [← search_eq_none_iff_nowhere]
  cases form <;> simp only [DateForm.takes, search_map, Option.map_eq_none_iff]

theorem parseDate_of_dateIn {y m d : Nat} (h : dateIn U text today = (dateOf y m d).map some) :
    parseDate U text today = Date.ofYmd? y m d := by
  rw [parseDate, h, dateOf]
  cases Date.ofYmd? y m d <;> rfl

theorem parseDate_of_decides {form : DateForm} {pre post : List Char} {numbers : Option (Nat × Nat × Nat)}
    (h : Decides U today.toYmd.1 text form pre post numbers) : parseDate U text today = dayOf numbers := by
  have hsearch := search_eq_some_iff.mpr ⟨pre, post, h.first⟩
  cases form with
  | iso =>
    simp only [DateForm.takes, search_map, Option.map_eq_some_iff] at hsearch
    obtain ⟨⟨y, m, d⟩, hiso, rfl⟩ := hsearch
    exact parseDate_of_dateIn (by simp only [dateIn, hiso])
  | dotted =>
    have hiso := (takes_nowhere_iff .iso _).mp (h.earlier .iso (by simp [DateForm.earlier]))
    simp only [DateForm.takes, search_map, Option.map_eq_some_iff] at hsearch
    obtain ⟨⟨d, m, given⟩, hdotted, rfl⟩ := hsearch
    exact parseDate_of_dateIn (by simp only [dateIn, hiso, hdotted])
  | named =>
    have hiso := (takes_nowhere_iff .iso _).mp (h.earlier .iso (by simp [DateForm.earlier]))
    have hdotted := (takes_nowhere_iff .dotted _).mp (h.earlier .dotted (by simp [DateForm.earlier]))
    simp only [DateForm.takes, search_map, Option.map_eq_some_iff] at hsearch
    obtain ⟨⟨d, word⟩, hnamed, rfl⟩ := hsearch
    cases hmonth : monthNum U word with
    | none => simp only [parseDate, dateIn, hiso, hdotted, hnamed, hmonth, dayOf, Option.map_none, Option.bind_none]
    | some m => exact parseDate_of_dateIn (by simp only [dateIn, hiso, hdotted, hnamed, hmonth])

theorem parseDate_of_nowhere {year : Nat}
    (h : ∀ form : DateForm, Nowhere (fun prev cs => form.takes U year prev cs) text) :
    parseDate U text today = none := by
  have hiso := (takes_nowhere_iff .iso _).mp (h .iso)
  have hdotted := (takes_nowhere_iff .dotted _).mp (h .dotted)
  have hnamed := (takes_nowhere_iff .named _).mp (h .named)
  simp only [parseDate, dateIn, hiso, hdotted, hnamed]

/-- Where some form matches at all, one place decides. -/
theorem exists_decides {year : Nat} {f : DateForm}
    (h : ¬ Nowhere (fun prev cs => f.takes U year prev cs) text) :
    ∃ form pre post numbers, Decides U year text form pre post numbers := by
  have hfirst : ∀ form : DateForm, ¬ Nowhere (fun prev cs => form.takes U year prev cs) text →
      ∃ pre post numbers, FirstAt (fun prev cs => form.takes U year prev cs) text pre post numbers := by
    intro form hform
    obtain ⟨numbers, hnumbers⟩ := Option.ne_none_iff_exists'.mp (mt search_eq_none_iff_nowhere.mp hform)
    obtain ⟨pre, post, hplace⟩ := search_eq_some_iff.mp hnumbers
    exact ⟨pre, post, numbers, hplace⟩
  by_cases hiso : Nowhere (fun prev cs => DateForm.iso.takes U year prev cs) text
  · by_cases hdotted : Nowhere (fun prev cs => DateForm.dotted.takes U year prev cs) text
    · have hnamed : ¬ Nowhere (fun prev cs => DateForm.named.takes U year prev cs) text := by
        cases f with
        | iso => exact absurd hiso h
        | dotted => exact absurd hdotted h
        | named => exact h
      obtain ⟨pre, post, numbers, hplace⟩ := hfirst .named hnamed
      refine ⟨.named, pre, post, numbers, hplace, fun f hf => ?_⟩
      simp only [DateForm.earlier, List.mem_cons, List.not_mem_nil, or_false] at hf
      rcases hf with rfl | rfl
      · exact hiso
      · exact hdotted
    · obtain ⟨pre, post, numbers, hplace⟩ := hfirst .dotted hdotted
      refine ⟨.dotted, pre, post, numbers, hplace, fun f hf => ?_⟩
      obtain rfl := List.mem_singleton.mp hf
      exact hiso
  · obtain ⟨pre, post, numbers, hplace⟩ := hfirst .iso hiso
    exact ⟨.iso, pre, post, numbers, hplace, fun f hf => absurd hf List.not_mem_nil⟩

end Deciding

section Matching

variable {U : CharTables} {R : Reading} {year : Nat} {prev : Option Char} {cs pre body post : List Char} {date : Date}

theorem CharTables.Lawful.not_digit (hU : U.Lawful) {c : Char} (h : U.isWord c = false) : U.digit c = none := by
  by_contra hdigit
  rw [hU.digit_word c (Option.isSome_iff_ne_none.mpr hdigit)] at h
  cases h

theorem CharTables.Lawful.letter_not_blank (hU : U.Lawful) {c : Char} (h : U.isCyrillic c = true) :
    isSpace c = false := by
  by_contra hblank
  have hword := hU.blank_not_word c (eq_true_of_ne_false hblank)
  rw [hU.letter_word c h] at hword
  cases hword

theorem monthNum_of_form {word : List Char} {month : Nat} (h : (U.lower word, month) ∈ monthForms) :
    monthNum U word = some month := by
  have hforms : ∀ f ∈ monthForms,
      (ruMonths.find? fun m => m.1.toList.isPrefixOf f.1).map Prod.snd = some f.2 := by decide +kernel
  exact hforms _ h

theorem isoAt_append {y m d rest : List Char} (hy : U.Number 4 4 y) (hm : U.Number 2 2 m) (hd : U.Number 2 2 d) :
    U.isoAt prev (y ++ '-' :: (m ++ '-' :: (d ++ rest))) = some (U.value y, U.value m, U.value d) := by
  simp only [CharTables.isoAt, hy.digits_exact, hm.digits_exact, hd.digits_exact, CharTables.literal_cons,
    Option.bind_eq_bind, Option.bind_some]

section Standing

variable {d m y gap word rest : List Char} (hU : U.Lawful) (hd : U.Number 1 2 d) (hm : U.Number 1 2 m)
  (hbefore : ∀ c, prev = some c → U.isWord c = false) (hafter : ∀ c, rest.head? = some c → U.isWord c = false)

include hU hd

theorem digits_before {c : Char} (hc : U.isWord c = false) : U.digits 1 2 (d ++ c :: rest) = some (d, c :: rest) := by
  refine hd.digits_append fun _ e he => ?_
  obtain rfl := Option.some.inj he
  exact hU.not_digit hc

include hbefore

theorem boundary_number : U.boundary prev (d ++ rest).head? = true := by
  obtain ⟨c, hc, hdigit⟩ : ∃ c, (d ++ rest).head? = some c ∧ (U.digit c).isSome = true := hd.head? (le_refl 1)
  exact CharTables.boundary_start hbefore hc (hU.digit_word c hdigit)

include hm hafter

/-- The year is left out where no number follows the second point. -/
theorem ddmmAt_dayMonth (hend : ∀ e q, rest = '.' :: e :: q → U.digit e = none) :
    U.ddmmAt prev (d ++ '.' :: (m ++ rest)) = some (U.value d, U.value m, none) := by
  have hmonth : U.digits 1 2 (m ++ rest) = some (m, rest) :=
    hm.digits_append fun _ e he => hU.not_digit (hafter e he)
  obtain ⟨e, he, hdigit⟩ := hm.getLast? (le_refl 1)
  have hboundary := CharTables.boundary_end he (hU.digit_word e hdigit) hafter
  have hyear : ∀ f : List Char × List Char → Option (Nat × Nat × Option Nat),
      ((literal '.' rest).bind fun cs => (U.digits 4 4 cs).bind f) = none := by
    intro f
    by_cases hpoint : rest.head? = some '.'
    · obtain ⟨q, rfl⟩ := List.head?_eq_some_iff.mp hpoint
      have hnone : U.digits 4 4 q = none := by
        refine CharTables.digits_of_head? (by decide) fun e he => ?_
        obtain ⟨q', rfl⟩ := List.head?_eq_some_iff.mp he
        exact hend e q' rfl
      rw [CharTables.literal_cons, Option.bind_some, hnone, Option.bind_none]
    · rw [CharTables.literal_of_head?_ne hpoint, Option.bind_none]
  simp only [CharTables.ddmmAt, boundary_number hU hd hbefore, digits_before hU hd hU.point_not_word,
    CharTables.literal_cons, hmonth, hboundary, hyear, if_true, Option.bind_eq_bind, Option.bind_some,
    Option.none_or]

theorem ddmmAt_dayMonthYear (hy : U.Number 4 4 y) :
    U.ddmmAt prev (d ++ '.' :: (m ++ '.' :: (y ++ rest))) = some (U.value d, U.value m, some (U.value y)) := by
  have hmonth : U.digits 1 2 (m ++ '.' :: (y ++ rest)) = some (m, '.' :: (y ++ rest)) :=
    digits_before hU hm hU.point_not_word
  obtain ⟨e, he, hdigit⟩ := hy.getLast? (by decide)
  have hboundary := CharTables.boundary_end he (hU.digit_word e hdigit) hafter
  simp only [CharTables.ddmmAt, boundary_number hU hd hbefore, digits_before hU hd hU.point_not_word,
    CharTables.literal_cons, hmonth, hy.digits_exact, hboundary, if_true, Option.bind_eq_bind, Option.bind_some,
    Option.some_or]

omit hm

theorem dayMonthAt_append (hgap : gap ≠ []) (hblank : ∀ c ∈ gap, isSpace c = true) (hword : word ≠ [])
    (hletter : ∀ c ∈ word, U.isCyrillic c = true) :
    U.dayMonthAt prev (d ++ (gap ++ (word ++ rest))) = some (U.value d, word) := by
  have hday : U.digits 1 2 (d ++ (gap ++ (word ++ rest))) = some (d, gap ++ (word ++ rest)) := by
    cases gap with
    | nil => exact absurd rfl hgap
    | cons b bs =>
      exact digits_before hU hd (hU.blank_not_word b (hblank b List.mem_cons_self))
  have hblanks : blanks (gap ++ (word ++ rest)) = some (word ++ rest) := by
    refine CharTables.blanks_append hgap hblank fun c hc => hU.letter_not_blank (hletter c ?_)
    cases word with
    | nil => exact absurd rfl hword
    | cons w ws =>
      obtain rfl := Option.some.inj hc
      exact List.mem_cons_self
  have hletters : U.cyrillicWord (word ++ rest) = some word := by
    refine CharTables.cyrillicWord_append hword hletter fun c hc => ?_
    by_contra hcyr
    have hcword := hU.letter_word c (eq_true_of_ne_false hcyr)
    rw [hafter c hc] at hcword
    cases hcword
  simp only [CharTables.dayMonthAt, boundary_number hU hd hbefore, hday, hblanks, hletters, if_true,
    Option.bind_eq_bind, Option.bind_some]

end Standing

/-- An expression that stands in the text is what its pattern takes there. -/
theorem Expresses.takes (hU : U.Lawful) (h : Expresses U R year body date) (hs : Stands U R pre body post) :
    ∃ (form : DateForm) (numbers : _),
      form.takes U year pre.getLast? (body ++ post) = some numbers ∧ dayOf numbers = some date := by
  cases h with
  | @iso y m d _ hy hm hd hdate =>
    refine ⟨.iso, some (U.value y, U.value m, U.value d), ?_, hdate⟩
    rw [List.append_assoc, List.cons_append, List.append_assoc, List.cons_append, DateForm.takes,
      isoAt_append hy hm hd]
    rfl
  | @dayMonth d m _ hd hm hdate =>
    refine ⟨.dotted, some (year, U.value m, U.value d), ?_, hdate⟩
    have hm₁ := hm.mono R.least_pos
    rw [List.append_assoc, List.cons_append, DateForm.takes,
      ddmmAt_dayMonth hU (hd.mono R.least_pos) hm₁ hs.before hs.after]
    · rfl
    · intro e q hq
      obtain ⟨c, hc, hdigit⟩ := hm₁.getLast? (le_refl 1)
      refine hs.closes '.' e q hq R.joins_point ⟨c, ?_, hdigit⟩
      rw [List.getLast?_append, List.getLast?_cons, hc]
      rfl
  | @dayMonthYear d m y _ hd hm hy hdate =>
    refine ⟨.dotted, some (U.value y, U.value m, U.value d), ?_, hdate⟩
    rw [List.append_assoc, List.cons_append, List.append_assoc, List.cons_append, DateForm.takes,
      ddmmAt_dayMonthYear hU (hd.mono R.least_pos) (hm.mono R.least_pos) hs.before hs.after hy]
    rfl
  | @named d gap word month _ hd hgap hblank hword hletter hform hdate =>
    refine ⟨.named, some (year, month, U.value d), ?_, hdate⟩
    rw [List.append_assoc, List.append_assoc, DateForm.takes,
      dayMonthAt_append hU hd hs.before hs.after hgap hblank hword hletter]
    simp only [Option.map_some, monthNum_of_form hform]

/-- What comes after the first digits, two at most. -/
def DateForm.next (U : CharTables) (c : Char) : DateForm → Prop
  | iso => (U.digit c).isSome = true
  | dotted => c = '.'
  | named => isSpace c = true

theorem DateForm.takes_next {form : DateForm} {numbers : Option (Nat × Nat × Nat)}
    (h : form.takes U year prev cs = some numbers) :
    ∃ ds c rest, U.digits 1 2 cs = some (ds, c :: rest) ∧ form.next U c := by
  cases form with
  | iso =>
    obtain ⟨r, hr, -⟩ := Option.map_eq_some_iff.mp h
    simp only [CharTables.isoAt, Option.bind_eq_bind, Option.bind_eq_some_iff] at hr
    obtain ⟨⟨ds, rest⟩, hds, -⟩ := hr
    obtain ⟨hnumber, rfl⟩ := CharTables.number_of_digits hds
    have hlength : ds.length = 4 := le_antisymm hnumber.le_hi hnumber.lo_le
    obtain ⟨a, b, c, e, rfl⟩ := List.length_eq_four.mp hlength
    have htwo : U.Number 1 2 [a, b] :=
      ⟨Nat.le_succ 1, le_refl 2, fun x hx => hnumber.digit x (List.mem_append_left [c, e] hx)⟩
    exact ⟨[a, b], c, e :: rest, htwo.digits_append fun hlt => absurd hlt (lt_irrefl 2), hnumber.digit c (by simp)⟩
  | dotted =>
    obtain ⟨r, hr, -⟩ := Option.map_eq_some_iff.mp h
    simp only [CharTables.ddmmAt, Option.ite_none_right_eq_some, Option.bind_eq_bind, Option.bind_eq_some_iff] at hr
    obtain ⟨-, ⟨ds, rest⟩, hds, rest', hlit, -⟩ := hr
    cases rest with
    | nil => cases hlit
    | cons c rest =>
      rw [literal, Option.ite_none_right_eq_some] at hlit
      exact ⟨ds, c, rest, hds, hlit.1⟩
  | named =>
    obtain ⟨r, hr, -⟩ := Option.map_eq_some_iff.mp h
    simp only [CharTables.dayMonthAt, Option.ite_none_right_eq_some, Option.bind_eq_bind, Option.bind_eq_some_iff] at hr
    obtain ⟨-, ⟨ds, rest⟩, hds, rest', hblank, -⟩ := hr
    cases rest with
    | nil => cases hblank
    | cons c rest =>
      rw [blanks, Option.ite_none_right_eq_some] at hblank
      exact ⟨ds, c, rest, hds, hblank.1⟩

theorem DateForm.next_unique (hU : U.Lawful) {c : Char} {f g : DateForm} (hf : f.next U c) (hg : g.next U c) :
    f = g := by
  have hpoint : ¬ (U.digit '.').isSome = true := by simp [hU.not_digit hU.point_not_word]
  have hblank : isSpace c = true → ¬ (U.digit c).isSome = true := fun h => by
    simp [hU.not_digit (hU.blank_not_word c h)]
  have hspace : ¬ isSpace '.' = true := by decide
  cases f <;> cases g <;> simp only [DateForm.next] at hf hg <;> grind

/-- At one place one form matches at most. -/
theorem DateForm.takes_unique (hU : U.Lawful) {f g : DateForm} {m n : Option (Nat × Nat × Nat)}
    (hf : f.takes U year prev cs = some m) (hg : g.takes U year prev cs = some n) : f = g ∧ m = n := by
  obtain ⟨ds, c, rest, hds, hnext⟩ := DateForm.takes_next hf
  obtain ⟨ds', c', rest', hds', hnext'⟩ := DateForm.takes_next hg
  obtain ⟨-, hrest⟩ := Prod.mk.inj (Option.some.inj (hds.symm.trans hds'))
  obtain ⟨rfl, -⟩ := List.cons_eq_cons.mp hrest
  obtain rfl := DateForm.next_unique hU hnext hnext'
  exact ⟨rfl, Option.some.inj (hf.symm.trans hg)⟩

end Matching

section Settling

variable (U : CharTables) (R : Reading)

/-- The place that decides is a fit one. -/
inductive Fits (year : Nat) (text pre post : List Char) (numbers : Option (Nat × Nat × Nat)) : Prop
  /-- An expression for a date stands there. -/
  | here {date : Date} (h : StandsAt U R year pre post date)
  /-- None does, but its numbers make a date that the text writes at another place. -/
  | elsewhere {date : Date} {p q : List Char} (hdate : dayOf numbers = some date) (hsplit : p ++ q = text)
      (hother : p.length ≠ pre.length) (h : StandsAt U R year p q date)
  /-- Its numbers make no date, or its word is no month, and no expression stands anywhere. -/
  | nothing (hdate : dayOf numbers = none) (h : ∀ date, ¬ Contains U R year text date)

variable {U R} {today : Date} {text : List Char}

theorem exists_decides_of_contains (hU : U.Lawful) {year : Nat} {date : Date} (h : Contains U R year text date) :
    ∃ form pre post numbers, Decides U year text form pre post numbers := by
  obtain ⟨pre, _, hsplit, body, rest, rfl, hbody, hstands⟩ := h
  obtain ⟨form, numbers, htakes, -⟩ := hbody.takes hU hstands
  refine exists_decides (f := form) fun hnowhere => ?_
  exact absurd (htakes.symm.trans (hnowhere pre (body ++ rest) hsplit)) (Option.some_ne_none numbers)

/-- The date that stands at the place that decides is the one read there. -/
theorem dayOf_of_standsAt (hU : U.Lawful) {year : Nat} {form : DateForm} {pre post : List Char}
    {numbers : Option (Nat × Nat × Nat)} {date : Date} (hdecides : Decides U year text form pre post numbers)
    (h : StandsAt U R year pre post date) : dayOf numbers = some date := by
  obtain ⟨body, rest, rfl, hbody, hstands⟩ := h
  obtain ⟨f, n, htakes, hdate⟩ := hbody.takes hU hstands
  obtain ⟨-, rfl⟩ := DateForm.takes_unique hU hdecides.first.here htakes
  exact hdate

/-- A fit place is one whose numbers make a date of the text, or none where the text has none. -/
theorem fits_iff (hU : U.Lawful) {year : Nat} {form : DateForm} {pre post : List Char}
    {numbers : Option (Nat × Nat × Nat)} (hdecides : Decides U year text form pre post numbers) :
    Fits U R year text pre post numbers ↔ (∀ date, dayOf numbers = some date → Contains U R year text date) ∧
      ((∃ date, Contains U R year text date) → ∃ date, dayOf numbers = some date) := by
  constructor
  · intro h
    cases h with
    | here hstands =>
      have hread := dayOf_of_standsAt hU hdecides hstands
      refine ⟨fun date hdate => ?_, fun _ => ⟨_, hread⟩⟩
      obtain rfl := Option.some.inj (hread.symm.trans hdate)
      exact ⟨pre, post, hdecides.first.split, hstands⟩
    | elsewhere hread hsplit _ hstands =>
      refine ⟨fun date hdate => ?_, fun _ => ⟨_, hread⟩⟩
      obtain rfl := Option.some.inj (hread.symm.trans hdate)
      exact ⟨_, _, hsplit, hstands⟩
    | nothing hread hnone =>
      refine ⟨fun date hdate => ?_, fun ⟨date, hdate⟩ => absurd hdate (hnone date)⟩
      rw [hread] at hdate
      cases hdate
  · rintro ⟨hsound, hcomplete⟩
    cases hnumbers : dayOf numbers with
    | none =>
      refine .nothing hnumbers fun date hdate => ?_
      obtain ⟨read, hread⟩ := hcomplete ⟨date, hdate⟩
      rw [hnumbers] at hread
      cases hread
    | some date =>
      obtain ⟨p, q, hsplit, hstands⟩ := hsound date hnumbers
      by_cases hlength : p.length = pre.length
      · obtain ⟨rfl, rfl⟩ := List.append_inj (hsplit.trans hdecides.first.split.symm) hlength
        exact .here hstands
      · exact .elsewhere hnumbers hsplit hlength hstands

/-- The reader is right about a text iff the place that decides is a fit one. -/
theorem parseDate_right_iff (hU : U.Lawful) : ReadsRightly U R text today ↔
    ∀ form pre post numbers, Decides U today.toYmd.1 text form pre post numbers →
      Fits U R today.toYmd.1 text pre post numbers := by
  constructor
  · intro h form pre post numbers hdecides
    rw [fits_iff hU hdecides, ← parseDate_of_decides hdecides]
    exact ⟨h.sound, h.complete⟩
  · intro h
    by_cases hnowhere : ∀ form : DateForm, Nowhere (fun prev cs => form.takes U today.toYmd.1 prev cs) text
    · have hnone : ∀ date, ¬ Contains U R today.toYmd.1 text date := fun date hdate => by
        obtain ⟨form, pre, post, numbers, hdecides⟩ := exists_decides_of_contains hU hdate
        exact absurd ((hnowhere form pre post hdecides.first.split).symm.trans hdecides.first.here)
          (Option.some_ne_none numbers).symm
      refine ⟨fun date hdate => ?_, fun ⟨date, hdate⟩ => absurd hdate (hnone date)⟩
      rw [parseDate_of_nowhere hnowhere] at hdate
      cases hdate
    · obtain ⟨f, hf⟩ := not_forall.mp hnowhere
      obtain ⟨form, pre, post, numbers, hdecides⟩ := exists_decides hf
      have hfits := (fits_iff hU hdecides).mp (h form pre post numbers hdecides)
      rw [← parseDate_of_decides hdecides] at hfits
      exact ⟨hfits.1, hfits.2⟩

end Settling

theorem parseDate_right_june : ReadsRightly .plain .plain "дедлайн 20 июня".toList (Date.ofYmd 2026 6 4) ↔
    ∀ form pre post numbers,
      Decides .plain (Date.ofYmd 2026 6 4).toYmd.1 "дедлайн 20 июня".toList form pre post numbers →
      Fits .plain .plain (Date.ofYmd 2026 6 4).toYmd.1 "дедлайн 20 июня".toList pre post numbers :=
  parseDate_right_iff CharTables.plain_lawful

/-- The number before any word is taken for the day, and no other is tried. -/
theorem slides_hide_date :
    ¬ ReadsRightly .plain .plain "5 слайдов к 10 мая".toList (Date.ofYmd 2026 6 4) := by
  intro h
  have hday : "10".toList.all (fun c => (CharTables.plain.digit c).isSome) = true := by decide
  have hgap : " ".toList.all isSpace = true := by decide
  have hword : "мая".toList.all CharTables.plain.isCyrillic = true := by decide
  have hexpresses : Expresses .plain .plain (Date.ofYmd 2026 6 4).toYmd.1
      ("10".toList ++ (" ".toList ++ "мая".toList)) (Date.ofYmd 2026 5 10) :=
    .named ⟨by decide, by decide, List.all_eq_true.mp hday⟩ (by decide) (List.all_eq_true.mp hgap) (by decide)
      (List.all_eq_true.mp hword)
      (by decide : (CharTables.plain.lower "мая".toList, 5) ∈ monthForms) (by decide)
  have hlast : "5 слайдов к ".toList.getLast? = some ' ' := by decide
  have hstands : Stands .plain .plain "5 слайдов к ".toList
      ("10".toList ++ (" ".toList ++ "мая".toList)) [] := by
    constructor
    · intro c hc
      obtain rfl := Option.some.inj (hlast.symm.trans hc)
      decide
    · nofun
    · intro p d c hp hjoins
      rw [hp, List.getLast?_append, List.getLast?_cons_cons] at hlast
      obtain rfl : c = ' ' := Option.some.inj hlast
      exact absurd hjoins (by decide)
    · nofun
  obtain ⟨date, hdate⟩ := h.complete ⟨Date.ofYmd 2026 5 10, "5 слайдов к ".toList, "10 мая".toList,
    by decide, _, [], by decide, hexpresses, hstands⟩
  have hnone : parseDate .plain "5 слайдов к 10 мая".toList (Date.ofYmd 2026 6 4) = none := by decide +kernel
  rw [hnone] at hdate
  cases hdate

/-- A word that begins like a month is taken for one. -/
example : parseDate .plain "3 машины".toList (Date.ofYmd 2026 6 4) = some (Date.ofYmd 2026 5 3) := by decide +kernel

end Planner
