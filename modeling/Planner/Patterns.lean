import Planner.IsoDate
import Planner.Text

/-! The patterns of the offline parser, read character by character. None of
them has to backtrack but for an optional year. -/

namespace Planner

/-- What Unicode says of letters and digits, with one law: blanks stay blanks. -/
structure CharTables where
  /-- `str.lower()`. -/
  lower : List Char → List Char
  /-- `str.casefold()`. -/
  casefold : List Char → List Char
  /-- The value of a character that `\d` matches. -/
  digit : Char → Option Nat
  /-- `\w`. -/
  isWord : Char → Bool
  /-- The letters are the same when case is ignored. -/
  sameLetter : Char → Char → Bool
  lower_blank : ∀ cs, cs.all isSpace = true → (lower cs).all isSpace = true

/-- `re.search`: the leftmost match. A pattern also sees the character before it. -/
def search {α : Type} (pattern : Option Char → List Char → Option α) : Option Char → List Char → Option α
  | prev, [] => pattern prev []
  | prev, c :: cs => (pattern prev (c :: cs)).or (search pattern (some c) cs)

/-- Where a pattern matches first. -/
structure FirstAt {α : Type} (pattern : Option Char → List Char → Option α) (text pre post : List Char)
    (a : α) : Prop where
  split : pre ++ post = text
  here : pattern pre.getLast? post = some a
  before : ∀ p q, p ++ q = text → p.length < pre.length → pattern p.getLast? q = none

def Nowhere {α : Type} (pattern : Option Char → List Char → Option α) (text : List Char) : Prop :=
  ∀ p q, p ++ q = text → pattern p.getLast? q = none

section Search

variable {α β : Type} {pattern : Option Char → List Char → Option α} {prev : Option Char} {text : List Char}

theorem getLast?_cons_or (c : Char) (p : List Char) :
    (c :: p).getLast?.or prev = p.getLast?.or (some c) := by
  rw [List.getLast?_cons]
  cases p.getLast? <;> rfl

theorem search_eq_none_iff : search pattern prev text = none ↔
    ∀ p q, p ++ q = text → pattern (p.getLast?.or prev) q = none := by
  induction text generalizing prev with
  | nil =>
    constructor
    · rintro h p q hpq
      obtain ⟨rfl, rfl⟩ := List.append_eq_nil_iff.mp hpq
      exact h
    · exact fun h => h [] [] rfl
  | cons c cs ih =>
    rw [search, Option.or_eq_none_iff, ih]
    constructor
    · rintro ⟨hhere, hlater⟩ p q hpq
      cases p with
      | nil =>
        rw [List.nil_append] at hpq
        rw [hpq]
        exact hhere
      | cons d p =>
        obtain ⟨rfl, htail⟩ := List.cons_eq_cons.mp hpq
        rw [getLast?_cons_or]
        exact hlater p q htail
    · intro h
      refine ⟨h [] (c :: cs) rfl, fun p q hpq => ?_⟩
      have hlast : (c :: p).getLast?.or prev = p.getLast?.or (some c) := getLast?_cons_or c p
      rw [← hlast]
      exact h (c :: p) q (congrArg (c :: ·) hpq)

theorem exists_first_of_search {a : α} (h : search pattern prev text = some a) : ∃ pre post,
    pre ++ post = text ∧ pattern (pre.getLast?.or prev) post = some a ∧
      ∀ p q, p ++ q = text → p.length < pre.length → pattern (p.getLast?.or prev) q = none := by
  induction text generalizing prev with
  | nil => exact ⟨[], [], rfl, h, fun p q _ hlt => absurd hlt (Nat.not_lt_zero _)⟩
  | cons c cs ih =>
    rw [search] at h
    cases hhere : pattern prev (c :: cs) with
    | some b =>
      rw [hhere] at h
      exact ⟨[], c :: cs, rfl, hhere.trans h, fun p q _ hlt => absurd hlt (Nat.not_lt_zero _)⟩
    | none =>
      rw [hhere, Option.none_or] at h
      obtain ⟨pre, post, hsplit, hmatch, hbefore⟩ := ih h
      refine ⟨c :: pre, post, congrArg (c :: ·) hsplit, (getLast?_cons_or c pre).symm ▸ hmatch, ?_⟩
      intro p q hpq hlt
      cases p with
      | nil =>
        rw [List.nil_append] at hpq
        rw [hpq]
        exact hhere
      | cons d p =>
        obtain ⟨rfl, htail⟩ := List.cons_eq_cons.mp hpq
        rw [getLast?_cons_or]
        exact hbefore p q htail (Nat.lt_of_succ_lt_succ hlt)

/-- The first match is the one that `re.search` returns. -/
theorem search_eq_some_iff {a : α} :
    search pattern none text = some a ↔ ∃ pre post, FirstAt pattern text pre post a := by
  constructor
  · intro h
    obtain ⟨pre, post, hsplit, hmatch, hbefore⟩ := exists_first_of_search h
    simp only [Option.or_none] at hmatch hbefore
    exact ⟨pre, post, hsplit, hmatch, hbefore⟩
  · rintro ⟨pre, post, hfirst⟩
    cases h : search pattern none text with
    | none =>
      have hnone := search_eq_none_iff.mp h pre post hfirst.split
      rw [Option.or_none, hfirst.here] at hnone
      cases hnone
    | some b =>
      obtain ⟨pre', post', hsplit, hmatch, hbefore⟩ := exists_first_of_search h
      simp only [Option.or_none] at hmatch hbefore
      have hle : pre'.length ≤ pre.length := by
        by_contra hlt
        have hnone := hbefore pre post hfirst.split (by omega)
        rw [hfirst.here] at hnone
        cases hnone
      have hge : pre.length ≤ pre'.length := by
        by_contra hlt
        have hnone := hfirst.before pre' post' hsplit (by omega)
        rw [hmatch] at hnone
        cases hnone
      obtain ⟨rfl, rfl⟩ := List.append_inj (hsplit.trans hfirst.split.symm) (by omega)
      exact hmatch.symm.trans hfirst.here

theorem search_eq_none_iff_nowhere : search pattern none text = none ↔ Nowhere pattern text := by
  rw [search_eq_none_iff]
  simp only [Option.or_none, Nowhere]

theorem search_map (f : α → β) :
    search (fun prev cs => (pattern prev cs).map f) prev text = (search pattern prev text).map f := by
  induction text generalizing prev with
  | nil => rfl
  | cons c cs ih => rw [search, search, ih, Option.map_or]

end Search

def literal (c : Char) : List Char → Option (List Char)
  | [] => none
  | d :: cs => if d = c then some cs else none

/-- `\s+`. -/
def blanks : List Char → Option (List Char)
  | [] => none
  | c :: cs => if isSpace c then some (cs.dropWhile isSpace) else none

/-- The characters of a class. -/
def oneOf (cls : String) (c : Char) : Bool := cls.toList.contains c

namespace CharTables

variable (U : CharTables)

/-- `\b` between two neighbours. -/
def boundary (prev next : Option Char) : Bool := prev.any U.isWord != next.any U.isWord

/-- `\d{lo,hi}`, as many as there are. -/
def digits (lo hi : Nat) (cs : List Char) : Option (List Char × List Char) :=
  let ds := (cs.take hi).takeWhile fun c => (U.digit c).isSome
  if lo ≤ ds.length then some (ds, cs.drop ds.length) else none

/-- `int()` of digits. -/
def value (ds : List Char) : Nat := ds.foldl (fun n c => 10 * n + (U.digit c).getD 0) 0

def isCyrillic (c : Char) : Bool := "абвгдежзийклмнопрстуфхцчшщъыьэюяё".toList.any (U.sameLetter c)

/-- `[а-яё]+` when case is ignored. -/
def cyrillicWord (cs : List Char) : Option (List Char) :=
  let word := cs.takeWhile U.isCyrillic
  if word.isEmpty then none else some word

section Runs

variable {U} {lo hi : Nat} {ds word gap rest : List Char}

/-- As many digits as the pattern asks for. -/
structure Number (U : CharTables) (lo hi : Nat) (ds : List Char) : Prop where
  lo_le : lo ≤ ds.length
  le_hi : ds.length ≤ hi
  digit : ∀ c ∈ ds, (U.digit c).isSome = true

theorem Number.digits_append (h : U.Number lo hi ds)
    (hstop : ds.length < hi → ∀ c, rest.head? = some c → U.digit c = none) :
    U.digits lo hi (ds ++ rest) = some (ds, rest) := by
  have hrun : ((ds ++ rest).take hi).takeWhile (fun c => (U.digit c).isSome) = ds := by
    rw [List.take_append, List.take_of_length_le h.le_hi, List.takeWhile_append_of_pos h.digit]
    suffices hnil : (rest.take (hi - ds.length)).takeWhile (fun c => (U.digit c).isSome) = [] by
      rw [hnil, List.append_nil]
    by_cases hlt : ds.length < hi
    · cases rest with
      | nil => rw [List.take_nil, List.takeWhile_nil]
      | cons c cs =>
        obtain ⟨k, hk⟩ : ∃ k, hi - ds.length = k + 1 := ⟨hi - ds.length - 1, by omega⟩
        rw [hk, List.take_succ_cons, List.takeWhile_cons_of_neg]
        rw [hstop hlt c rfl]
        exact Bool.false_ne_true
    · rw [Nat.sub_eq_zero_of_le (by omega), List.take_zero]
      rfl
  simp only [digits, hrun, h.lo_le, if_true, List.drop_left]

theorem Number.digits_exact {n : Nat} (h : U.Number n n ds) : U.digits n n (ds ++ rest) = some (ds, rest) :=
  h.digits_append fun hlt => absurd h.lo_le (Nat.not_le.mpr hlt)

theorem Number.mono {lo' : Nat} (h : U.Number lo hi ds) (hle : lo' ≤ lo) : U.Number lo' hi ds :=
  ⟨hle.trans h.lo_le, h.le_hi, h.digit⟩

theorem number_of_digits (h : U.digits lo hi rest = some (ds, word)) : U.Number lo hi ds ∧ ds ++ word = rest := by
  obtain ⟨hlo, hds⟩ := Option.ite_none_right_eq_some.mp h
  obtain ⟨rfl, rfl⟩ := Prod.mk.inj (Option.some.inj hds)
  have hprefix : (rest.take hi).takeWhile (fun c => (U.digit c).isSome) <+: rest :=
    (List.takeWhile_prefix _).trans (List.take_prefix hi rest)
  refine ⟨⟨hlo, (List.takeWhile_prefix _).length_le.trans (List.length_take_le hi rest), fun c hc => ?_⟩, ?_⟩
  · exact List.mem_takeWhile_imp (p := fun c => (U.digit c).isSome) hc
  · exact List.prefix_iff_eq_append.mp hprefix

theorem digits_of_head? (hlo : 1 ≤ lo) (hhead : ∀ c, rest.head? = some c → U.digit c = none) :
    U.digits lo hi rest = none := by
  have hrun : (rest.take hi).takeWhile (fun c => (U.digit c).isSome) = [] := by
    cases rest with
    | nil => rw [List.take_nil, List.takeWhile_nil]
    | cons c cs =>
      cases hi with
      | zero => rw [List.take_zero, List.takeWhile_nil]
      | succ hi =>
        rw [List.take_succ_cons, List.takeWhile_cons_of_neg]
        rw [hhead c rfl]
        exact Bool.false_ne_true
  simp only [digits, hrun]
  exact if_neg (by rw [List.length_nil]; omega)

theorem Number.head? (h : U.Number lo hi ds) (hlo : 1 ≤ lo) :
    ∃ c, (ds ++ rest).head? = some c ∧ (U.digit c).isSome = true := by
  cases ds with
  | nil => exact absurd h.lo_le (by simp; omega)
  | cons c cs => exact ⟨c, rfl, h.digit c List.mem_cons_self⟩

theorem Number.getLast? (h : U.Number lo hi ds) (hlo : 1 ≤ lo) :
    ∃ c, ds.getLast? = some c ∧ (U.digit c).isSome = true := by
  have hne : ds ≠ [] := by
    rintro rfl
    exact absurd h.lo_le (by simp; omega)
  exact ⟨ds.getLast hne, List.getLast?_eq_some_getLast hne, h.digit _ (List.getLast_mem hne)⟩

theorem literal_cons (c : Char) (cs : List Char) : literal c (c :: cs) = some cs := if_pos rfl

theorem literal_of_head?_ne {c : Char} {cs : List Char} (h : cs.head? ≠ some c) : literal c cs = none := by
  cases cs with
  | nil => rfl
  | cons d cs => exact if_neg fun heq => h (congrArg some heq)

theorem blanks_append (hne : gap ≠ []) (hgap : ∀ c ∈ gap, isSpace c = true)
    (hstop : ∀ c, rest.head? = some c → isSpace c = false) : blanks (gap ++ rest) = some rest := by
  have hrest : rest.dropWhile isSpace = rest := by
    cases rest with
    | nil => rfl
    | cons c cs => rw [List.dropWhile_cons_of_neg (ne_true_of_eq_false (hstop c rfl))]
  cases gap with
  | nil => exact absurd rfl hne
  | cons b bs =>
    have hbs : (bs ++ rest).dropWhile isSpace = rest.dropWhile isSpace :=
      List.dropWhile_append_of_pos fun c hc => hgap c (List.mem_cons_of_mem b hc)
    rw [List.cons_append, blanks, if_pos (hgap b List.mem_cons_self), hbs, hrest]

theorem cyrillicWord_append (hne : word ≠ []) (hword : ∀ c ∈ word, U.isCyrillic c = true)
    (hstop : ∀ c, rest.head? = some c → U.isCyrillic c = false) : U.cyrillicWord (word ++ rest) = some word := by
  have hrest : rest.takeWhile U.isCyrillic = [] := by
    cases rest with
    | nil => rfl
    | cons c cs => rw [List.takeWhile_cons_of_neg (ne_true_of_eq_false (hstop c rfl))]
  rw [cyrillicWord, List.takeWhile_append_of_pos hword, hrest, List.append_nil]
  exact if_neg (by simpa using hne)

end Runs

theorem boundary_start {U : CharTables} {prev next : Option Char} {c : Char}
    (hprev : ∀ c, prev = some c → U.isWord c = false) (hnext : next = some c) (hword : U.isWord c = true) :
    U.boundary prev next = true := by
  subst hnext
  cases prev with
  | none => simp [boundary, hword]
  | some b => simp [boundary, hword, hprev b rfl]

theorem boundary_end {U : CharTables} {prev next : Option Char} {c : Char} (hprev : prev = some c)
    (hword : U.isWord c = true) (hnext : ∀ c, next = some c → U.isWord c = false) :
    U.boundary prev next = true := by
  subst hprev
  cases next with
  | none => simp [boundary, hword]
  | some b => simp [boundary, hword, hnext b rfl]

/-- `_ISO`. -/
def isoAt (_ : Option Char) (cs : List Char) : Option (Nat × Nat × Nat) := do
  let (year, cs) ← U.digits 4 4 cs
  let cs ← literal '-' cs
  let (month, cs) ← U.digits 2 2 cs
  let cs ← literal '-' cs
  let (day, _) ← U.digits 2 2 cs
  some (U.value year, U.value month, U.value day)

/-- `_DM`. -/
def dayMonthAt (prev : Option Char) (cs : List Char) : Option (Nat × List Char) :=
  if U.boundary prev cs.head? then do
    let (day, cs) ← U.digits 1 2 cs
    let cs ← blanks cs
    let word ← U.cyrillicWord cs
    some (U.value day, word)
  else none

/-- `_DDMM`: day, month and the year, unless the word goes on after it. -/
def ddmmAt (prev : Option Char) (cs : List Char) : Option (Nat × Nat × Option Nat) :=
  if U.boundary prev cs.head? then do
    let (day, cs) ← U.digits 1 2 cs
    let cs ← literal '.' cs
    let (month, cs) ← U.digits 1 2 cs
    let withYear := do
      let rest ← literal '.' cs
      let (year, rest) ← U.digits 4 4 rest
      if U.boundary year.getLast? rest.head? then some (U.value day, U.value month, some (U.value year)) else none
    let alone := if U.boundary month.getLast? cs.head? then some (U.value day, U.value month, none) else none
    withYear.or alone
  else none

/-- `_RANGE`. -/
def rangeAt (_ : Option Char) (cs : List Char) : Option (Nat × Nat × List Char) := do
  let (first, cs) ← U.digits 1 2 cs
  let cs ← match cs.dropWhile isSpace with
    | dash :: cs => if oneOf "-–—" dash then some (cs.dropWhile isSpace) else none
    | [] => none
  let (last, cs) ← U.digits 1 2 cs
  let cs ← blanks cs
  let word ← U.cyrillicWord cs
  some (U.value first, U.value last, word)

/-- `_TIME`. -/
def timeAt (prev : Option Char) : List Char → Option (Nat × Nat)
  | [] => none
  | c :: cs =>
    if U.boundary prev (some c) && (U.sameLetter c 'в' || U.sameLetter c 'к') then do
      let cs ← blanks cs
      let (hour, cs) ← U.digits 1 2 cs
      let cs ← literal ':' cs
      let (minute, cs) ← U.digits 2 2 cs
      if U.boundary minute.getLast? cs.head? then some (U.value hour, U.value minute) else none
    else none

end CharTables

/-- `_QUOTE`: what stands between two quotation marks of any kind. -/
def quoteAt (_ : Option Char) : List Char → Option (List Char)
  | [] => none
  | c :: cs =>
    if oneOf "\"«»'„“”" c then
      let body := cs.takeWhile fun d => !oneOf "\"«»'„“”" d
      if body.isEmpty ∨ body.length = cs.length then none else some body
    else none

/-- The Latin and Cyrillic letters and the ASCII digits. -/
def CharTables.plain : CharTables where
  lower cs := cs.map lowerChar
  casefold cs := cs.map lowerChar
  digit c := if c.isDigit then some (c.toNat - 48) else none
  isWord c := c.isAlphanum || c == '_' || (0x400 ≤ c.toNat && c.toNat ≤ 0x45f)
  sameLetter a b := lowerChar a == lowerChar b
  lower_blank cs h := by
    have hsame : ∀ c, isSpace c = true → lowerChar c = c := by
      intro c hc
      simp only [isSpace, Bool.or_eq_true, Bool.and_eq_true, decide_eq_true_eq, beq_iff_eq] at hc
      have hlatin : ¬ (65 ≤ c.toNat ∧ c.toNat ≤ 90 ∨ 0x410 ≤ c.toNat ∧ c.toNat ≤ 0x42f) := by omega
      have hyo : ¬ (0x400 ≤ c.toNat ∧ c.toNat ≤ 0x40f) := by omega
      simp only [lowerChar, hlatin, hyo, if_false]
    rw [List.all_eq_true] at h ⊢
    intro c hc
    obtain ⟨d, hd, rfl⟩ := List.mem_map.mp hc
    rw [hsame d (h d hd)]
    exact h d hd

example : search CharTables.plain.ddmmAt none "до 05.07.2026.".toList = some (5, 7, some 2026) := by decide

end Planner
