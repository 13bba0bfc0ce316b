import Mathlib.Data.List.Basic
import Mathlib.Data.List.Nodup
import Mathlib.Data.List.Perm.Basic

/-! Insertion-ordered dictionaries. Keys are unique by construction, a new key
goes to the end and an update keeps the place of its key. -/

/-- A dictionary that remembers the order in which its keys were first inserted. -/
structure OrdDict (α β : Type) where
  entries : List (α × β)
  nodup_keys : (entries.map Prod.fst).Nodup

namespace OrdDict

variable {α β γ : Type}

@[ext] theorem ext {d e : OrdDict α β} (h : d.entries = e.entries) : d = e := by
  cases d; cases e; simp_all

def empty : OrdDict α β := ⟨[], List.nodup_nil⟩

instance : Inhabited (OrdDict α β) := ⟨empty⟩

def keys (d : OrdDict α β) : List α := d.entries.map Prod.fst

def values (d : OrdDict α β) : List β := d.entries.map Prod.snd

/-- Rewrites every value without touching the keys. -/
def mapEntries (d : OrdDict α β) (f : α → β → γ) : OrdDict α γ :=
  ⟨d.entries.map fun e => (e.1, f e.1 e.2), by
    simpa only [List.map_map, Function.comp_def] using d.nodup_keys⟩

def filter (d : OrdDict α β) (p : α → β → Bool) : OrdDict α β :=
  ⟨d.entries.filter fun e => p e.1 e.2,
    d.nodup_keys.sublist (List.filter_sublist.map Prod.fst)⟩

@[simp] theorem keys_empty : (empty : OrdDict α β).keys = [] := rfl

@[simp] theorem values_empty : (empty : OrdDict α β).values = [] := rfl

theorem mem_keys_filter {d : OrdDict α β} {p : α → β → Bool} {k : α} (h : k ∈ (d.filter p).keys) :
    k ∈ d.keys := by
  obtain ⟨e, he, rfl⟩ := List.mem_map.mp h
  exact List.mem_map_of_mem (List.mem_of_mem_filter he)

@[simp] theorem keys_mapEntries (d : OrdDict α β) (f : α → β → γ) :
    (d.mapEntries f).keys = d.keys := by
  simp [keys, mapEntries, Function.comp_def]

variable [DecidableEq α]

instance [DecidableEq β] : DecidableEq (OrdDict α β) := fun d e =>
  decidable_of_iff (d.entries = e.entries) ⟨ext, congrArg entries⟩

def get? (d : OrdDict α β) (k : α) : Option β := d.entries.lookup k

def getD (d : OrdDict α β) (k : α) (v : β) : β := (d.get? k).getD v

def contains (d : OrdDict α β) (k : α) : Bool := (d.get? k).isSome

def modify (d : OrdDict α β) (k : α) (f : β → β) : OrdDict α β :=
  d.mapEntries fun k' v => if k' = k then f v else v

theorem lookup_isSome_iff {l : List (α × β)} {k : α} :
    (l.lookup k).isSome ↔ k ∈ l.map Prod.fst := by
  induction l with
  | nil => simp
  | cons e l ih =>
    obtain ⟨k', v⟩ := e
    by_cases h : k = k'
    · simp [h]
    · simp [List.lookup_cons, h, beq_false_of_ne h, ih]

theorem mem_keys {d : OrdDict α β} {k : α} : k ∈ d.keys ↔ (d.get? k).isSome :=
  lookup_isSome_iff.symm

theorem contains_iff {d : OrdDict α β} {k : α} : d.contains k = true ↔ k ∈ d.keys := mem_keys.symm

theorem lookup_eq_some_iff {l : List (α × β)} (hl : (l.map Prod.fst).Nodup) {k : α} {v : β} :
    l.lookup k = some v ↔ (k, v) ∈ l := by
  induction l with
  | nil => simp
  | cons e l ih =>
    obtain ⟨k', v'⟩ := e
    simp only [List.map_cons, List.nodup_cons] at hl
    by_cases h : k = k'
    · subst h
      have hn : ∀ w, (k, w) ∉ l := fun w hw => hl.1 (List.mem_map_of_mem (f := Prod.fst) hw)
      simp [hn, eq_comm]
    · simp [List.lookup_cons, beq_false_of_ne h, h, ih hl.2]

theorem get?_eq_some_iff {d : OrdDict α β} {k : α} {v : β} :
    d.get? k = some v ↔ (k, v) ∈ d.entries := lookup_eq_some_iff d.nodup_keys

theorem get?_eq_none_iff {d : OrdDict α β} {k : α} : d.get? k = none ↔ k ∉ d.keys := by
  rw [mem_keys, ← Option.not_isSome_iff_eq_none]

theorem mem_values {d : OrdDict α β} {v : β} : v ∈ d.values ↔ ∃ k, d.get? k = some v := by
  simp only [values, List.mem_map, Prod.exists, exists_eq_right, get?_eq_some_iff]

theorem filterMap_keys (d : OrdDict α β) : d.keys.filterMap d.get? = d.values := by
  rw [keys, values, List.filterMap_map, ← List.filterMap_eq_map]
  refine List.filterMap_congr fun e he => ?_
  exact get?_eq_some_iff.mpr he

theorem perm_values {d : OrdDict α β} {order : List α} (hnodup : order.Nodup) (hkeys : ∀ k ∈ d.keys, k ∈ order) :
    (order.filterMap d.get?).Perm d.values := by
  have hsome : order.filterMap d.get? = (order.filter fun k => k ∈ d.keys).filterMap d.get? := by
    rw [List.filterMap_filter]
    refine List.filterMap_congr fun k _ => ?_
    by_cases hk : k ∈ d.keys
    · simp [hk]
    · simp [hk, get?_eq_none_iff.mpr hk]
  have hperm : (order.filter fun k => k ∈ d.keys).Perm d.keys := by
    refine (List.perm_ext_iff_of_nodup (hnodup.filter _) d.nodup_keys).mpr fun k => ?_
    rw [List.mem_filter, decide_eq_true_eq]
    exact ⟨fun hk => hk.2, fun hk => ⟨hkeys k hk, hk⟩⟩
  rw [hsome, ← filterMap_keys]
  exact hperm.filterMap _

@[simp] theorem get?_empty (k : α) : (empty : OrdDict α β).get? k = none := rfl

theorem lookup_map_snd (l : List (α × β)) (f : α → β → γ) (k : α) :
    (l.map fun e => (e.1, f e.1 e.2)).lookup k = (l.lookup k).map (f k) := by
  induction l with
  | nil => rfl
  | cons e l ih =>
    obtain ⟨k', v⟩ := e
    by_cases h : k = k'
    · simp [h]
    · simp [List.lookup_cons, beq_false_of_ne h, ih]

@[simp] theorem get?_mapEntries (d : OrdDict α β) (f : α → β → γ) (k : α) :
    (d.mapEntries f).get? k = (d.get? k).map (f k) := lookup_map_snd d.entries f k

theorem get?_modify (d : OrdDict α β) (k k' : α) (f : β → β) :
    (d.modify k f).get? k' = if k' = k then (d.get? k').map f else d.get? k' := by
  by_cases h : k' = k <;> simp [modify, h]

@[simp] theorem get?_modify_self (d : OrdDict α β) (k : α) (f : β → β) :
    (d.modify k f).get? k = (d.get? k).map f := by simp [get?_modify]

theorem get?_modify_of_ne (d : OrdDict α β) {k k' : α} (f : β → β) (h : k' ≠ k) :
    (d.modify k f).get? k' = d.get? k' := by simp [get?_modify, h]

@[simp] theorem keys_modify (d : OrdDict α β) (k : α) (f : β → β) :
    (d.modify k f).keys = d.keys := keys_mapEntries d _

/-- What an update leaves alone looks the same over all values. -/
theorem map_values_modify (d : OrdDict α β) (k : α) {f : β → β} {g : β → γ}
    (h : ∀ v, g (f v) = g v) : (d.modify k f).values.map g = d.values.map g := by
  simp only [values, modify, mapEntries, List.map_map]
  refine List.map_congr_left fun e _ => ?_
  simp only [Function.comp_apply]
  split
  · exact h e.2
  · rfl

theorem modify_split {d : OrdDict α β} {k : α} {v : β} (h : d.get? k = some v) :
    ∃ pre post, d.entries = pre ++ (k, v) :: post ∧
      ∀ f, (d.modify k f).entries = pre ++ (k, f v) :: post := by
  obtain ⟨pre, post, he⟩ := List.append_of_mem (get?_eq_some_iff.mp h)
  have hn := d.nodup_keys
  rw [he, List.map_append, List.map_cons, List.nodup_middle, List.nodup_cons, ← List.map_append] at hn
  have hother : ∀ f : β → β, ∀ e ∈ pre ++ post, (e.1, if e.1 = k then f e.2 else e.2) = e := by
    intro f e hm
    have hne : e.1 ≠ k := fun hk => hn.1 (List.mem_map.mpr ⟨e, hm, hk⟩)
    rw [if_neg hne]
  have hsame : ∀ (f : β → β) (l : List (α × β)), (∀ e ∈ l, e ∈ pre ++ post) →
      l.map (fun e => (e.1, if e.1 = k then f e.2 else e.2)) = l := by
    intro f l hl
    conv_rhs => rw [← List.map_id l]
    exact List.map_congr_left fun e hm => hother f e (hl e hm)
  refine ⟨pre, post, he, fun f => ?_⟩
  simp only [modify, mapEntries, he, List.map_append, List.map_cons, if_true]
  rw [hsame f pre fun e => List.mem_append_left _, hsame f post fun e => List.mem_append_right _]

theorem modify_eq_self {d : OrdDict α β} {k : α} {v : β} (h : d.get? k = some v) {f : β → β} (hf : f v = v) :
    d.modify k f = d := by
  obtain ⟨pre, post, he, hmodify⟩ := modify_split h
  exact ext (by rw [hmodify, hf, he])

theorem modify_congr {d : OrdDict α β} {k : α} {v : β} (h : d.get? k = some v) {f g : β → β} (hfg : f v = g v) :
    d.modify k f = d.modify k g := by
  obtain ⟨pre, post, -, hmodify⟩ := modify_split h
  exact ext (by rw [hmodify, hmodify, hfg])

theorem get?_filter (d : OrdDict α β) (p : α → β → Bool) (k : α) :
    (d.filter p).get? k = (d.get? k).filter (p k) := by
  refine Option.ext fun v => ?_
  rw [get?_eq_some_iff, Option.filter_eq_some_iff, get?_eq_some_iff]
  simp [filter]

/-- Assignment `d[k] = v`: an existing key keeps its place, a new one goes last. -/
def insert (d : OrdDict α β) (k : α) (v : β) : OrdDict α β :=
  if h : (d.get? k).isSome then d.modify k fun _ => v
  else ⟨d.entries ++ [(k, v)], by
    rw [List.map_append, List.nodup_append]
    refine ⟨d.nodup_keys, by simp, ?_⟩
    rintro a ha b hb rfl
    simp only [List.map_cons, List.map_nil, List.mem_singleton] at hb
    exact h (hb ▸ lookup_isSome_iff.mpr ha)⟩

theorem entries_insert_of_not_mem {d : OrdDict α β} {k : α} (h : k ∉ d.keys) (v : β) :
    (d.insert k v).entries = d.entries ++ [(k, v)] := by
  have hk : ¬ (d.get? k).isSome := fun hh => h (mem_keys.mpr hh)
  simp only [insert, hk, Bool.false_eq_true, dite_false]

theorem values_insert_of_not_mem {d : OrdDict α β} {k : α} (h : k ∉ d.keys) (v : β) :
    (d.insert k v).values = d.values ++ [v] := by
  simp only [values, entries_insert_of_not_mem h, List.map_append, List.map_cons, List.map_nil]

theorem keys_insert_of_not_mem {d : OrdDict α β} {k : α} (h : k ∉ d.keys) (v : β) :
    (d.insert k v).keys = d.keys ++ [k] := by
  simp only [keys, entries_insert_of_not_mem h, List.map_append, List.map_cons, List.map_nil]

theorem lookup_append_singleton (l : List (α × β)) (k k' : α) (v : β) :
    (l ++ [(k, v)]).lookup k' =
      (l.lookup k').or (if k' = k then some v else none) := by
  induction l with
  | nil => by_cases h : k' = k <;> simp [List.lookup_cons, h, beq_false_of_ne]
  | cons e l ih =>
    obtain ⟨k₂, w⟩ := e
    by_cases h : k' = k₂
    · simp [h]
    · simp [List.lookup_cons, beq_false_of_ne h, ih]

theorem get?_insert (d : OrdDict α β) (k k' : α) (v : β) :
    (d.insert k v).get? k' = if k' = k then some v else d.get? k' := by
  by_cases hk : (d.get? k).isSome
  · obtain ⟨w, hw⟩ := Option.isSome_iff_exists.mp hk
    by_cases h : k' = k
    · subst h; simp [insert, hw]
    · simp [insert, hw, get?_modify, h]
  · have hn : d.get? k = none := Option.not_isSome_iff_eq_none.mp hk
    have he : (d.insert k v).get? k' = (d.entries ++ [(k, v)]).lookup k' := by
      simp only [get?, insert] at hn ⊢
      simp [hn]
    rw [he, lookup_append_singleton]
    by_cases h : k' = k
    · subst h
      change ((d.get? k').or _) = _
      simp [hn]
    · simp [h, get?]

@[simp] theorem get?_insert_self (d : OrdDict α β) (k : α) (v : β) :
    (d.insert k v).get? k = some v := by simp [get?_insert]

theorem get?_insert_of_ne (d : OrdDict α β) {k k' : α} (v : β) (h : k' ≠ k) :
    (d.insert k v).get? k' = d.get? k' := by simp [get?_insert, h]

@[simp] theorem mem_keys_insert {d : OrdDict α β} {k k' : α} {v : β} :
    k' ∈ (d.insert k v).keys ↔ k' = k ∨ k' ∈ d.keys := by
  by_cases h : k' = k <;> simp [mem_keys, get?_insert, h]

theorem modify_insert_self (d : OrdDict α β) (k : α) (v : β) (f : β → β) :
    (d.insert k v).modify k f = d.insert k (f v) := by
  by_cases hk : (d.get? k).isSome
  · have hmod : ∀ w, d.insert k w = d.modify k fun _ => w := fun w => by simp only [insert, hk, dite_true]
    rw [hmod, hmod]
    apply ext
    simp only [modify, mapEntries, List.map_map]
    refine List.map_congr_left fun e _ => ?_
    by_cases h : e.1 = k <;> simp [h]
  · have hn : k ∉ d.keys := fun hm => hk (mem_keys.mp hm)
    apply ext
    rw [entries_insert_of_not_mem hn]
    simp only [modify, mapEntries, entries_insert_of_not_mem hn, List.map_append, List.map_cons,
      List.map_nil, if_true]
    refine congrArg (· ++ _) ?_
    have hid : ∀ e ∈ d.entries, (e.1, if e.1 = k then f e.2 else e.2) = e := by
      intro e he
      have hne : e.1 ≠ k := fun h => hn (h ▸ List.mem_map_of_mem he)
      simp [hne]
    rw [List.map_congr_left hid, List.map_id']

theorem mem_values_insert {d : OrdDict α β} {k : α} {v w : β}
    (h : w ∈ (d.insert k v).values) : w = v ∨ w ∈ d.values := by
  obtain ⟨k', hk⟩ := mem_values.mp h
  rw [get?_insert] at hk
  split at hk
  · exact Or.inl (Option.some.inj hk).symm
  · exact Or.inr (mem_values.mpr ⟨k', hk⟩)

/-- `R` between the values of any two keys of a kind. -/
def Apart (d : OrdDict α β) (new : α → Prop) (R : β → β → Prop) : Prop :=
  ∀ k k' v v', d.get? k = some v → d.get? k' = some v' → new k → new k' → k ≠ k' → R v v'

theorem Apart.insert {d : OrdDict α β} {new : α → Prop} {R : β → β → Prop} (h : d.Apart new R) {k : α} {v : β}
    (hR : ∀ v v', R v v' → R v' v) (hv : ∀ w ∈ d.values, R v w) : (d.insert k v).Apart new R := by
  intro k₁ k₂ v₁ v₂ h₁ h₂ hn₁ hn₂ hne
  rw [get?_insert] at h₁ h₂
  split at h₁
  · rename_i hk
    obtain rfl := Option.some.inj h₁
    rw [if_neg fun hk' => hne (hk.trans hk'.symm)] at h₂
    exact hv v₂ (mem_values.mpr ⟨k₂, h₂⟩)
  · split at h₂
    · obtain rfl := Option.some.inj h₂
      exact hR _ _ (hv v₁ (mem_values.mpr ⟨k₁, h₁⟩))
    · exact h k₁ k₂ v₁ v₂ h₁ h₂ hn₁ hn₂ hne

/-- Assignments one after the other, as `dict.update` does. -/
def insertAll (d : OrdDict α β) (l : List (α × β)) : OrdDict α β :=
  l.foldl (fun d e => d.insert e.1 e.2) d

/-- A dictionary comprehension: the last value given for a key wins. -/
def ofList (l : List (α × β)) : OrdDict α β := empty.insertAll l

@[simp] theorem insertAll_nil (d : OrdDict α β) : d.insertAll [] = d := rfl

theorem insertAll_cons (d : OrdDict α β) (e : α × β) (l : List (α × β)) :
    d.insertAll (e :: l) = (d.insert e.1 e.2).insertAll l := rfl

theorem get?_insertAll_of_not_mem (l : List (α × β)) (d : OrdDict α β) {k : α}
    (h : k ∉ l.map Prod.fst) : (d.insertAll l).get? k = d.get? k := by
  induction l generalizing d with
  | nil => rfl
  | cons e l ih =>
    simp only [List.map_cons, List.mem_cons, not_or] at h
    rw [insertAll_cons, ih _ h.2, get?_insert_of_ne _ _ h.1]

theorem get?_insertAll_of_mem (l : List (α × β)) (d : OrdDict α β) {k : α} {v : β}
    (hl : (l.map Prod.fst).Nodup) (h : (k, v) ∈ l) : (d.insertAll l).get? k = some v := by
  induction l generalizing d with
  | nil => simp at h
  | cons e l ih =>
    simp only [List.map_cons, List.nodup_cons] at hl
    rcases List.mem_cons.mp h with rfl | h
    · rw [insertAll_cons, get?_insertAll_of_not_mem l _ hl.1, get?_insert_self]
    · exact ih _ hl.2 h

/-- Of equal keys with equal values it does not matter which comes last. -/
theorem get?_insertAll_of_forall (l : List (α × β)) (d : OrdDict α β) {k : α} {v : β} (hk : k ∈ l.map Prod.fst)
    (h : ∀ e ∈ l, e.1 = k → e.2 = v) : (d.insertAll l).get? k = some v := by
  induction l generalizing d with
  | nil => cases hk
  | cons e l ih =>
    rw [insertAll_cons]
    by_cases hl : k ∈ l.map Prod.fst
    · exact ih _ hl fun e' he' => h e' (List.mem_cons_of_mem _ he')
    · have he : e.1 = k := ((List.mem_cons.mp hk).resolve_right hl).symm
      rw [get?_insertAll_of_not_mem l _ hl, he, get?_insert_self, h e List.mem_cons_self he]

/-- New keys go to the end, in the order in which they come. -/
theorem entries_insertAll (l : List (α × β)) (d : OrdDict α β) (hl : (l.map Prod.fst).Nodup)
    (h : ∀ k ∈ l.map Prod.fst, k ∉ d.keys) : (d.insertAll l).entries = d.entries ++ l := by
  induction l generalizing d with
  | nil => simp
  | cons e l ih =>
    simp only [List.map_cons, List.nodup_cons] at hl
    have he : e.1 ∉ d.keys := h e.1 List.mem_cons_self
    rw [insertAll_cons, ih _ hl.2 fun k hk hkd => ?_, entries_insert_of_not_mem he, List.append_assoc]
    · rfl
    · rcases mem_keys_insert.mp hkd with rfl | hkd
      · exact hl.1 hk
      · exact h k (List.mem_cons_of_mem _ hk) hkd

theorem mem_keys_insertAll (l : List (α × β)) (d : OrdDict α β) {k : α} :
    k ∈ (d.insertAll l).keys ↔ k ∈ l.map Prod.fst ∨ k ∈ d.keys := by
  induction l generalizing d with
  | nil => simp
  | cons e l ih =>
    rw [insertAll_cons, ih, mem_keys_insert, List.map_cons, List.mem_cons]
    tauto

/-- What is found after the assignments was assigned or there before, duplicates or not. -/
theorem mem_of_get?_insertAll {l : List (α × β)} {d : OrdDict α β} {k : α} {v : β}
    (h : (d.insertAll l).get? k = some v) : (k, v) ∈ l ∨ d.get? k = some v := by
  induction l generalizing d with
  | nil => exact Or.inr h
  | cons e l ih =>
    rcases ih h with hm | hm
    · exact Or.inl (List.mem_cons_of_mem _ hm)
    · rw [get?_insert] at hm
      split at hm
      · rename_i hk
        exact Or.inl (by rw [hk, ← Option.some.inj hm]; exact List.mem_cons_self)
      · exact Or.inr hm

theorem get?_ofList_of_mem {l : List (α × β)} (hl : (l.map Prod.fst).Nodup) {k : α} {v : β}
    (h : (k, v) ∈ l) : (ofList l).get? k = some v := get?_insertAll_of_mem l empty hl h

theorem mem_keys_ofList {l : List (α × β)} {k : α} :
    k ∈ (ofList l).keys ↔ k ∈ l.map Prod.fst := by
  simp [ofList, mem_keys_insertAll]

theorem mem_of_get?_ofList {l : List (α × β)} {k : α} {v : β}
    (h : (ofList l).get? k = some v) : (k, v) ∈ l := by
  simpa using mem_of_get?_insertAll h

/-- A comprehension whose values go through a function. -/
theorem get?_ofList_map (l : List (α × β)) (f : β → γ) (k : α) :
    (ofList (l.map fun e => (e.1, f e.2))).get? k = ((ofList l).get? k).map f := by
  have key : ∀ (d : OrdDict α β) (e : OrdDict α γ), (∀ k, e.get? k = (d.get? k).map f) →
      (e.insertAll (l.map fun e => (e.1, f e.2))).get? k = ((d.insertAll l).get? k).map f := by
    induction l with
    | nil => exact fun d e h => h k
    | cons x l ih =>
      intro d e h
      rw [List.map_cons, insertAll_cons, insertAll_cons]
      refine ih _ _ fun k' => ?_
      rw [get?_insert, get?_insert]
      split
      · rfl
      · exact h k'
  exact key empty empty fun _ => rfl

/-- The values that were paired with the keys, read back in order. -/
theorem map_getD_ofList_zip {ks : List α} {vs : List β} (hks : ks.Nodup) (hlen : ks.length = vs.length) (v : β) :
    ks.map (fun k => (ofList (ks.zip vs)).getD k v) = vs := by
  refine List.ext_getElem (by simpa using hlen) fun i hi hi' => ?_
  rw [List.length_map] at hi
  have hmem : (ks[i], vs[i]) ∈ ks.zip vs := by
    have hlt : i < (ks.zip vs).length := List.length_zip ▸ Nat.lt_min.mpr ⟨hi, hi'⟩
    exact List.getElem_zip (h := hlt) ▸ List.getElem_mem hlt
  have hget := get?_ofList_of_mem (by rwa [List.map_fst_zip (Nat.le_of_eq hlen)]) hmem
  simp only [List.getElem_map, getD, hget, Option.getD_some]

theorem get?_ofList_entries (d : OrdDict α β) (k : α) : (ofList d.entries).get? k = d.get? k := by
  cases hk : d.get? k with
  | some v => exact get?_ofList_of_mem d.nodup_keys (get?_eq_some_iff.mp hk)
  | none => exact get?_eq_none_iff.mpr fun hm => get?_eq_none_iff.mp hk (mem_keys_ofList.mp hm)

/-- The order of the rows decides nothing if the keys are distinct. -/
theorem get?_ofList_perm {l l' : List (α × β)} (hl : (l.map Prod.fst).Nodup) (h : l'.Perm l) (k : α) :
    (ofList l').get? k = (ofList l).get? k := by
  have hl' : (l'.map Prod.fst).Nodup := (h.map Prod.fst).nodup_iff.mpr hl
  refine Option.ext fun v => ⟨fun hv => ?_, fun hv => ?_⟩
  · exact get?_ofList_of_mem hl (h.subset (mem_of_get?_ofList hv))
  · exact get?_ofList_of_mem hl' (h.symm.subset (mem_of_get?_ofList hv))

theorem entries_perm {d e : OrdDict α β} (h : ∀ k, d.get? k = e.get? k) : d.entries.Perm e.entries := by
  have hnodup : ∀ f : OrdDict α β, f.entries.Nodup := fun f => f.nodup_keys.of_map Prod.fst
  refine (List.perm_ext_iff_of_nodup (hnodup d) (hnodup e)).mpr fun ⟨k, v⟩ => ?_
  rw [← get?_eq_some_iff, ← get?_eq_some_iff, h]

/-- Rows that agree key by key up to a relation give dictionaries that do. -/
theorem rel_get?_ofList {R : α → β → γ → Prop} {l : List (α × β)} {l' : List (α × γ)}
    (h : List.Forall₂ (fun e e' => e'.1 = e.1 ∧ R e.1 e.2 e'.2) l l') (k : α) :
    Option.Rel (R k) ((ofList l).get? k) ((ofList l').get? k) := by
  have key : ∀ (d : OrdDict α β) (e : OrdDict α γ), (∀ k, Option.Rel (R k) (d.get? k) (e.get? k)) →
      Option.Rel (R k) ((d.insertAll l).get? k) ((e.insertAll l').get? k) := by
    induction h with
    | nil => exact fun d e hde => hde k
    | @cons x y l l' hxy _ ih =>
      intro d e hde
      rw [insertAll_cons, insertAll_cons]
      refine ih _ _ fun k' => ?_
      rw [get?_insert, get?_insert, hxy.1]
      split
      · rename_i hk
        exact .some (hk ▸ hxy.2)
      · exact hde k'
  exact key empty empty fun _ => .none

/-- Rows with other keys do not matter. -/
theorem get?_ofList_filter (l : List (α × β)) (p : α → Bool) {k : α} (hk : p k = true) :
    (ofList (l.filter fun e => p e.1)).get? k = (ofList l).get? k := by
  have key : ∀ d e : OrdDict α β, d.get? k = e.get? k →
      (d.insertAll (l.filter fun e => p e.1)).get? k = (e.insertAll l).get? k := by
    induction l with
    | nil => exact fun d e h => h
    | cons x l ih =>
      intro d e h
      by_cases hx : p x.1 = true
      · rw [List.filter_cons, if_pos hx, insertAll_cons, insertAll_cons]
        refine ih _ _ ?_
        rw [get?_insert, get?_insert, h]
      · have hne : k ≠ x.1 := fun he => hx (he ▸ hk)
        rw [List.filter_cons, if_neg hx, insertAll_cons]
        refine ih _ _ ?_
        rw [get?_insert_of_ne _ _ hne, h]
  exact key empty empty rfl

end OrdDict
