import Mathlib.Data.List.Infix

/-! Fields `key = value` joined by a separator. The text does not say where a value
ends, but a reader who wants a value without `=` in it can only find the one written. -/

namespace Fields

variable {α : Type} [BEq α] [LawfulBEq α] {sep eq : α}

def field (eq : α) (f : List α × List α) : List α := f.1 ++ eq :: f.2

def join (sep eq : α) (fs : List (List α × List α)) : List α := [sep].intercalate (fs.map (field eq))

theorem splitOn_append_of_not_mem {xs : List α} (h : sep ∉ xs) (ys : List α) :
    (xs ++ ys).splitOn sep = (ys.splitOn sep).modifyHead (xs ++ ·) := by
  induction xs with
  | nil => cases hs : ys.splitOn sep <;> simp [hs]
  | cons x xs ih =>
    obtain ⟨hx, hxs⟩ := not_or.mp (mt List.mem_cons.mpr h)
    have hne : (x == sep) = false := by simpa using Ne.symm hx
    rw [List.cons_append, List.splitOn_cons_eq_if_modifyHead, hne, ih hxs]
    cases ys.splitOn sep <;> rfl

theorem splitOn_intercalate_eq_flatMap {ls : List (List α)} (h : ls ≠ []) :
    ([sep].intercalate ls).splitOn sep = ls.flatMap fun l => l.splitOn sep := by
  induction ls with
  | nil => exact absurd rfl h
  | cons l ls ih =>
    cases ls with
    | nil => simp
    | cons m ls =>
      have hjoin : [sep].intercalate (l :: m :: ls) = l ++ sep :: [sep].intercalate (m :: ls) := by simp
      rw [hjoin, List.splitOn_append_cons_self, ih (List.cons_ne_nil m ls)]
      rfl

/-- No key has a separator or `=` in it, and no value a separator. -/
structure Clean (sep eq : α) (fs : List (List α × List α)) : Prop where
  sep_key : ∀ f ∈ fs, sep ∉ f.1
  eq_key : ∀ f ∈ fs, eq ∉ f.1
  sep_value : ∀ f ∈ fs, sep ∉ f.2

omit [BEq α] [LawfulBEq α] in
theorem field_inj {k k' v v' : List α} (hk : eq ∉ k) (hk' : eq ∉ k') (h : field eq (k, v) = field eq (k', v')) :
    k = k' ∧ v = v' := by
  induction k generalizing k' with
  | nil =>
    cases k' with
    | nil => exact ⟨rfl, (List.cons.inj h).2⟩
    | cons x k' => exact absurd (List.mem_cons.mpr (Or.inl (List.cons.inj h).1)) hk'
  | cons x k ih =>
    cases k' with
    | nil => exact absurd (List.mem_cons.mpr (Or.inl (List.cons.inj h).1.symm)) hk
    | cons y k' =>
      obtain ⟨hxy, hrest⟩ := List.cons.inj h
      obtain ⟨hkk, hvv⟩ := ih (mt (List.mem_cons_of_mem x) hk) (mt (List.mem_cons_of_mem y) hk') hrest
      exact ⟨by rw [hxy, hkk], hvv⟩

/-- The lines of clean fields are the fields. -/
theorem splitOn_join (hne : sep ≠ eq) {fs : List (List α × List α)} (h : Clean sep eq fs) (hfs : fs ≠ []) :
    (join sep eq fs).splitOn sep = fs.map (field eq) := by
  rw [join, List.splitOn_intercalate sep _ (by simpa using hfs)]
  intro l hl
  obtain ⟨f, hf, rfl⟩ := List.mem_map.mp hl
  simp [field, h.sep_key f hf, h.sep_value f hf, hne]

theorem mem_line (hne : sep ≠ eq) {fs : List (List α × List α)} (h : Clean sep eq fs) (htext : join sep eq fs ≠ [])
    {l : List α} (hl : l ∈ (join sep eq fs).splitOn sep) : ∃ f ∈ fs, field eq f = l := by
  have hfs : fs ≠ [] := by
    rintro rfl
    exact htext rfl
  rw [splitOn_join hne h hfs] at hl
  exact List.mem_map.mp hl

omit [BEq α] [LawfulBEq α] in
theorem mem_intercalate {ls : List (List α)} {l : List α} {a : α} (hl : l ∈ ls) (ha : a ∈ l) :
    a ∈ [sep].intercalate ls := by
  induction ls with
  | nil => cases hl
  | cons m ls ih =>
    cases ls with
    | nil => simpa using List.mem_singleton.mp hl ▸ ha
    | cons n ls =>
      rw [List.intercalate_cons_cons]
      rcases List.mem_cons.mp hl with rfl | hl
      · exact List.mem_append_left _ (List.mem_append_left _ ha)
      · exact List.mem_append_right _ (ih hl)

omit [BEq α] [LawfulBEq α] in
theorem of_mem_intercalate {ls : List (List α)} {a : α} (h : a ∈ [sep].intercalate ls) : a = sep ∨ ∃ l ∈ ls, a ∈ l := by
  induction ls with
  | nil => cases h
  | cons m ls ih =>
    cases ls with
    | nil => exact Or.inr ⟨m, by simp, by simpa using h⟩
    | cons n ls =>
      rw [List.intercalate_cons_cons] at h
      rcases List.mem_append.mp h with h | h
      · rcases List.mem_append.mp h with h | h
        · exact Or.inr ⟨m, by simp, h⟩
        · exact Or.inl (List.mem_singleton.mp h)
      · rcases ih h with hsep | ⟨l, hl, ha⟩
        · exact Or.inl hsep
        · exact Or.inr ⟨l, List.mem_cons_of_mem m hl, ha⟩

/-- Whatever fields give the same text as clean ones: a value among them is the one that
was written under its key, or it runs on over the next field. -/
theorem value_of_join_eq (hne : sep ≠ eq) {fs gs : List (List α × List α)} (hclean : Clean sep eq fs)
    (h : join sep eq gs = join sep eq fs) {k v : List α} (hkv : (k, v) ∈ gs) (hsep : sep ∉ k) (heq : eq ∉ k) :
    (k, v) ∈ fs ∨ eq ∈ v := by
  have hkey : sep ∉ k ++ [eq] := by simp [hsep, hne]
  have hfield : field eq (k, v) = (k ++ [eq]) ++ v := by simp [field]
  have htext : join sep eq fs ≠ [] := by
    rw [← h]
    exact List.ne_nil_of_mem (mem_intercalate (List.mem_map_of_mem hkv) (by simp [field] : eq ∈ field eq (k, v)))
  have hline : ∀ l ∈ (field eq (k, v)).splitOn sep, ∃ f ∈ fs, field eq f = l := by
    refine fun l hl => mem_line hne hclean htext ?_
    rw [← h, join, splitOn_intercalate_eq_flatMap (by simpa using List.ne_nil_of_mem hkv)]
    exact List.mem_flatMap.mpr ⟨_, List.mem_map_of_mem hkv, hl⟩
  rw [hfield, splitOn_append_of_not_mem hkey] at hline
  cases hv : v.splitOn sep with
  | nil => exact absurd hv (List.splitOn_ne_nil sep v)
  | cons w ws =>
    rw [hv] at hline
    cases ws with
    | nil =>
      have hjoin : List.intercalate [sep] (v.splitOn sep) = v := List.intercalate_splitOn sep
      have hvw : v = w := by
        rw [← hjoin, hv]
        simp
      obtain ⟨f, hf, hfw⟩ := hline (k ++ [eq] ++ w) (by simp)
      rw [hvw]
      obtain ⟨rfl, rfl⟩ := field_inj (hclean.eq_key f hf) heq (hfw.trans (by simp [field] : _ = field eq (k, w)))
      exact Or.inl hf
    | cons x ws =>
      -- the second line of the value is a field of its own
      obtain ⟨f, -, rfl⟩ := hline x (by simp)
      have hmem : eq ∈ [sep].intercalate (v.splitOn sep) :=
        mem_intercalate (hv ▸ List.mem_cons_of_mem w List.mem_cons_self) (by simp [field] : eq ∈ field eq f)
      rw [List.intercalate_splitOn] at hmem
      exact Or.inr hmem

end Fields
