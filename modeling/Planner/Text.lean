import Mathlib.Data.List.DropRight
import Mathlib.Data.List.MinMax

/-! The string methods the use-cases rely on, over lists of characters, and the
matching of free-text names against the roster. -/

namespace Planner

/-- `str.isspace` of one character. -/
def isSpace (c : Char) : Bool :=
  let n := c.toNat
  (9 ≤ n && n ≤ 13) || (28 ≤ n && n ≤ 32) || n == 0x85 || n == 0xa0 || n == 0x1680 ||
    (0x2000 ≤ n && n ≤ 0x200a) || n == 0x2028 || n == 0x2029 || n == 0x202f || n == 0x205f ||
    n == 0x3000

def stripChars (cs : List Char) : List Char :=
  ((cs.dropWhile isSpace).reverse.dropWhile isSpace).reverse

/-- `str.strip()`. -/
def strip (s : String) : String := String.ofList (stripChars s.toList)

theorem stripChars_stripChars (cs : List Char) : stripChars (stripChars cs) = stripChars cs := by
  have hsub : stripChars cs <+: cs.dropWhile isSpace := List.rdropWhile_prefix isSpace _
  have hhead : (stripChars cs).dropWhile isSpace = stripChars cs := by
    rw [List.dropWhile_eq_self_iff]
    intro hl
    rw [hsub.getElem hl]
    exact List.dropWhile_get_zero_not isSpace cs _
  have hlast : (stripChars cs).rdropWhile isSpace = stripChars cs := List.rdropWhile_idempotent isSpace _
  have hstrip : stripChars (stripChars cs) = ((stripChars cs).dropWhile isSpace).rdropWhile isSpace := rfl
  rw [hstrip, hhead, hlast]

@[simp] theorem strip_strip (s : String) : strip (strip s) = strip s := by
  rw [strip, strip, String.toList_ofList, stripChars_stripChars]

theorem length_strip_le (s : String) : (strip s).length ≤ s.length := by
  have hsub : stripChars s.toList <+: s.toList.dropWhile isSpace := List.rdropWhile_prefix isSpace _
  rw [strip, String.length_ofList, ← String.length_toList]
  exact hsub.length_le.trans (List.dropWhile_suffix _).length_le

/-- `str.lower` on the Latin and Cyrillic alphabets; other letters are kept. -/
def lowerChar (c : Char) : Char :=
  let n := c.toNat
  if 65 ≤ n ∧ n ≤ 90 ∨ 0x410 ≤ n ∧ n ≤ 0x42f then Char.ofNat (n + 32)
  else if 0x400 ≤ n ∧ n ≤ 0x40f then Char.ofNat (n + 80)
  else c

theorem toNat_ofNat {n : Nat} (h : n < 0xd800) : (Char.ofNat n).toNat = n := by
  have hv : n.isValidChar := Or.inl h
  rw [Char.ofNat, dif_pos hv]
  rfl

theorem isSpace_lowerChar (c : Char) : isSpace (lowerChar c) = isSpace c := by
  simp only [lowerChar]
  split
  · rename_i h
    rw [isSpace, isSpace, toNat_ofNat (by omega)]
    rw [Bool.eq_iff_iff]
    simp only [Bool.or_eq_true, Bool.and_eq_true, decide_eq_true_eq, beq_iff_eq]
    omega
  · split
    · rename_i h
      rw [isSpace, isSpace, toNat_ofNat (by omega)]
      rw [Bool.eq_iff_iff]
      simp only [Bool.or_eq_true, Bool.and_eq_true, decide_eq_true_eq, beq_iff_eq]
      omega
    · rfl

/-- Case-fold and treat ё/е as one letter. -/
def normName (s : String) : List Char :=
  (stripChars s.toList).map fun c => if lowerChar c = 'ё' then 'е' else lowerChar c

/-- `str.split()`. -/
def words (cs : List Char) : List (List Char) := (cs.splitOnP isSpace).filter fun w => !w.isEmpty

theorem words_stripChars (cs : List Char) : words (stripChars cs) = words cs := by
  have hfront : ∀ cs : List Char, words (cs.dropWhile isSpace) = words cs := by
    intro cs
    induction cs with
    | nil => rfl
    | cons c cs ih =>
      by_cases hc : isSpace c = true
      · rw [List.dropWhile_cons_of_pos hc, ih]
        simp [words, List.splitOnP_cons_eq_if_modifyHead, hc]
      · rw [List.dropWhile_cons_of_neg hc]
  have hback : ∀ cs : List Char, words (cs.rdropWhile isSpace) = words cs := by
    intro cs
    induction cs using List.reverseRecOn with
    | nil => rfl
    | append_singleton cs c ih =>
      by_cases hc : isSpace c = true
      · rw [List.rdropWhile_concat_pos _ _ _ hc, ih]
        simp [words, List.splitOnP_append_cons cs [] hc]
      · rw [List.rdropWhile_concat_neg _ _ _ hc]
  exact (hback _).trans (hfront cs)

theorem words_map {f : Char → Char} (hf : ∀ c, isSpace (f c) = isSpace c) (cs : List Char) :
    words (cs.map f) = (words cs).map (List.map f) := by
  have hsplit : (cs.map f).splitOnP isSpace = (cs.splitOnP isSpace).map (List.map f) := by
    induction cs with
    | nil => rfl
    | cons c cs ih =>
      rw [List.map_cons, List.splitOnP_cons_eq_if_modifyHead, List.splitOnP_cons_eq_if_modifyHead, hf, ih]
      split
      · rfl
      · cases cs.splitOnP isSpace <;> rfl
  rw [words, words, hsplit, List.filter_map]
  refine congrArg _ (List.filter_congr fun w _ => ?_)
  simp

/-- Exact match first, else the shortest name with a word that starts with the query. -/
def matchPersonName (candidates : List String) (query : String) : Option String :=
  let q := normName query
  if q.isEmpty then none
  else
    match candidates.find? fun c => normName c = q with
    | some exact => some exact
    | none =>
      (candidates.filter fun c => (words (normName c)).any fun w => q.isPrefixOf w).argmin
        String.length

example : matchPersonName ["Лёша Гарник", "Андрей"] " лЕша" = some "Лёша Гарник" := by decide

end Planner
