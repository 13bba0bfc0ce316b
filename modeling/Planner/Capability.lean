import Mathlib.Algebra.Order.Field.Basic
import Mathlib.Algebra.Order.Field.Rat
import Mathlib.Data.List.Sort
import Mathlib.Data.String.Basic
import Planner.Models
import Planner.Patterns

/-! Who could take a task: the share of the required skills that somebody covers,
then who is freer. Skills are compared without case and surrounding blanks. -/

namespace Planner

/-- `skills` is a set: only membership is read. -/
structure Candidate where
  personId : UUID
  name : String
  skills : List String
  isExternal : Bool := false
  loadHours : Int := 0
  deriving DecidableEq, Repr

structure AssigneeSuggestion where
  personId : UUID
  name : String
  coverage : ℚ
  coveredSkills : List String
  missingSkills : List String
  loadHours : Int
  deriving DecidableEq, Repr

/-- `(-coverage, load_hours, name)` of `a` is not greater than that of `b`. -/
def AssigneeSuggestion.NotAfter (a b : AssigneeSuggestion) : Prop :=
  b.coverage < a.coverage ∨ a.coverage = b.coverage ∧
    (a.loadHours < b.loadHours ∨ a.loadHours = b.loadHours ∧ a.name ≤ b.name)

instance (a b : AssigneeSuggestion) : Decidable (a.NotAfter b) := inferInstanceAs (Decidable (_ ∨ _))

/-- `dict.fromkeys`, as the list of its keys. -/
def fromkeys (l : List String) : List String := (OrdDict.ofList (l.map fun s => (s, ()))).keys

/-- `l[:limit]`. -/
def upTo {α : Type} (limit : Int) (l : List α) : List α :=
  if 0 ≤ limit then l.take limit.toNat else l.take (l.length - limit.natAbs)

/-- Only the bound people if there are any, otherwise outsiders on request. -/
def eligible (includeExternal : Bool) (restrictTo : Option (List UUID)) (c : Candidate) : Bool :=
  let binding := restrictTo.getD []
  if binding ≠ [] ∧ c.personId ∉ binding then false
  else if c.isExternal ∧ ¬ includeExternal ∧ binding = [] then false
  else true

section Skills

variable (U : CharTables)

/-- `_norm`. -/
def normSkill (skill : String) : List Char := U.casefold (stripChars skill.toList)

/-- `label_by_key.setdefault(_norm(s), s)`. -/
def setLabel (labels : OrdDict (List Char) String) (s : String) : OrdDict (List Char) String :=
  if labels.contains (normSkill U s) then labels else labels.insert (normSkill U s) s

def requiredLabels (skills : List String) : List String := fromkeys ((skills.map strip).filter fun s => s ≠ "")

/-- The first spelling of every skill that is required, by its key. -/
def labelByKey (skills : List String) : OrdDict (List Char) String :=
  (requiredLabels skills).foldl (setLabel U) .empty

def suggestionFor (labels : OrdDict (List Char) String) (c : Candidate) : AssigneeSuggestion :=
  let has := c.skills.map (normSkill U)
  let coveredKeys := labels.keys.filter fun k => k ∈ has
  let missingKeys := labels.keys.filter fun k => k ∉ has
  { personId := c.personId
    name := c.name
    coverage := if labels.keys = [] then 1 else (coveredKeys.length : ℚ) / labels.keys.length
    coveredSkills := coveredKeys.map fun k => labels.getD k ""
    missingSkills := missingKeys.map fun k => labels.getD k ""
    loadHours := c.loadHours }

def suggestAssignees (requiredSkills : List String) (candidates : List Candidate) (includeExternal : Bool)
    (limit : Option Int) (restrictTo : Option (List UUID)) : List AssigneeSuggestion :=
  let labels := labelByKey U requiredSkills
  let suggestions := ((candidates.filter (eligible includeExternal restrictTo)).map (suggestionFor U labels)).insertionSort
    AssigneeSuggestion.NotAfter
  match limit with
  | none => suggestions
  | some n => upTo n suggestions

end Skills

section Labels

variable {U : CharTables} {labels : OrdDict (List Char) String}

/-- A skill that is asked for: not only blanks. -/
def Wanted (U : CharTables) (required : List String) (key : List Char) : Prop :=
  ∃ s ∈ required, strip s ≠ "" ∧ normSkill U s = key

@[simp] theorem normSkill_strip (s : String) : normSkill U (strip s) = normSkill U s := by
  rw [normSkill, strip, String.toList_ofList, stripChars_stripChars]
  rfl

theorem setLabel_of_mem {s : String} (h : normSkill U s ∈ labels.keys) : setLabel U labels s = labels :=
  if_pos (OrdDict.contains_iff.mpr h)

theorem mem_keys_setLabel {s : String} {k : List Char} :
    k ∈ (setLabel U labels s).keys ↔ k = normSkill U s ∨ k ∈ labels.keys := by
  unfold setLabel
  split
  · rename_i h
    exact ⟨Or.inr, fun hk => hk.elim (fun e => e ▸ OrdDict.contains_iff.mp h) id⟩
  · exact OrdDict.mem_keys_insert

theorem mem_keys_foldl {l : List String} {k : List Char} :
    k ∈ (l.foldl (setLabel U) labels).keys ↔ (∃ s ∈ l, normSkill U s = k) ∨ k ∈ labels.keys := by
  induction l generalizing labels with
  | nil => simp
  | cons s l ih =>
    rw [List.foldl_cons, ih, mem_keys_setLabel, List.exists_mem_cons_iff, eq_comm (a := k), or_left_comm, or_assoc]

/-- Every label is a spelling of its key. -/
theorem norm_label {l : List String} (h : ∀ k v, labels.get? k = some v → normSkill U v = k) {k : List Char}
    {v : String} (hk : (l.foldl (setLabel U) labels).get? k = some v) : normSkill U v = k := by
  induction l generalizing labels with
  | nil => exact h k v hk
  | cons s l ih =>
    refine ih (fun k v hv => ?_) hk
    unfold setLabel at hv
    split at hv
    · exact h k v hv
    · rw [OrdDict.get?_insert] at hv
      split at hv
      · rename_i he
        rw [← Option.some.inj hv, he]
      · exact h k v hv

theorem fromkeys_concat (l : List String) (s : String) :
    fromkeys (l ++ [s]) = if s ∈ fromkeys l then fromkeys l else fromkeys l ++ [s] := by
  have hinsert : OrdDict.ofList ((l ++ [s]).map fun s => (s, ())) =
      (OrdDict.ofList (l.map fun s => (s, ()))).insert s () := by
    simp [OrdDict.ofList, OrdDict.insertAll, List.foldl_append]
  rw [fromkeys, hinsert]
  split
  · rename_i h
    have hk : ((OrdDict.ofList (l.map fun s => (s, ()))).get? s).isSome := OrdDict.mem_keys.mp h
    simp only [OrdDict.insert, hk, dite_true, OrdDict.keys_modify]
    rfl
  · rename_i h
    exact OrdDict.keys_insert_of_not_mem h ()

/-- A spelling that comes again has its label already. -/
theorem foldl_fromkeys (l : List String) : (fromkeys l).foldl (setLabel U) .empty = l.foldl (setLabel U) .empty := by
  induction l using List.reverseRecOn with
  | nil => rfl
  | append_singleton l s ih =>
    rw [fromkeys_concat, List.foldl_append, ← ih]
    split
    · rename_i h
      refine (setLabel_of_mem ?_).symm
      exact mem_keys_foldl.mpr (Or.inl ⟨s, h, rfl⟩)
    · rw [List.foldl_append]

/-- The skills of a request in their order, without blanks. -/
def trimmed (required : List String) : List String := (required.map strip).filter fun s => s ≠ ""

theorem trimmed_append (pre post : List String) : trimmed (pre ++ post) = trimmed pre ++ trimmed post := by
  rw [trimmed, List.map_append, List.filter_append]
  rfl

theorem labelByKey_eq (required : List String) : labelByKey U required = (trimmed required).foldl (setLabel U) .empty :=
  foldl_fromkeys _

theorem mem_labelByKey {required : List String} {k : List Char} :
    k ∈ (labelByKey U required).keys ↔ Wanted U required k := by
  rw [labelByKey_eq, mem_keys_foldl]
  simp only [OrdDict.keys_empty, List.not_mem_nil, or_false, trimmed, List.mem_filter, List.mem_map, decide_eq_true_eq,
    Wanted]
  constructor
  · rintro ⟨s, ⟨⟨t, ht, rfl⟩, hne⟩, hk⟩
    exact ⟨t, ht, hne, by rw [← hk, normSkill_strip]⟩
  · rintro ⟨t, ht, hne, hk⟩
    exact ⟨strip t, ⟨⟨t, ht, rfl⟩, hne⟩, by rw [normSkill_strip, hk]⟩

theorem norm_getD {required : List String} {k : List Char} (hk : k ∈ (labelByKey U required).keys) :
    normSkill U ((labelByKey U required).getD k "") = k := by
  obtain ⟨v, hv⟩ := Option.isSome_iff_exists.mp (OrdDict.mem_keys.mp hk)
  rw [OrdDict.getD, hv, Option.getD_some]
  rw [labelByKey_eq] at hv
  exact norm_label (by simp) hv

end Labels

/-- What a suggestion has to say of a candidate. -/
structure SuggestsRightly (U : CharTables) (required : List String) (c : Candidate) (a : AssigneeSuggestion) : Prop where
  person : a.personId = c.personId ∧ a.name = c.name ∧ a.loadHours = c.loadHours
  once : ((a.coveredSkills ++ a.missingSkills).map (normSkill U)).Nodup
  parts : ∀ k, k ∈ (a.coveredSkills ++ a.missingSkills).map (normSkill U) ↔ Wanted U required k
  covered : ∀ s ∈ a.coveredSkills, ∃ t ∈ c.skills, normSkill U t = normSkill U s
  missing : ∀ s ∈ a.missingSkills, ∀ t ∈ c.skills, normSkill U t ≠ normSkill U s
  coverage : a.coverage = if a.coveredSkills ++ a.missingSkills = [] then 1
    else (a.coveredSkills.length : ℚ) / (a.coveredSkills ++ a.missingSkills).length
  bounds : 0 ≤ a.coverage ∧ a.coverage ≤ 1

section Suggestions

variable {U : CharTables} {required : List String}

theorem map_norm_labels {keys : List (List Char)} (h : ∀ k ∈ keys, k ∈ (labelByKey U required).keys) :
    (keys.map fun k => (labelByKey U required).getD k "").map (normSkill U) = keys := by
  rw [List.map_map]
  exact List.map_congr_left (fun k hk => norm_getD (h k hk)) |>.trans (List.map_id _)

theorem suggestsRightly (c : Candidate) : SuggestsRightly U required c (suggestionFor U (labelByKey U required) c) := by
  obtain ⟨keys, hkeys⟩ : ∃ keys, keys = (labelByKey U required).keys := ⟨_, rfl⟩
  have hsub : ∀ p : List Char → Bool, ∀ k ∈ keys.filter p, k ∈ (labelByKey U required).keys :=
    fun p k hk => hkeys ▸ List.mem_of_mem_filter hk
  have hperm : (keys.filter (fun k => k ∈ c.skills.map (normSkill U)) ++
      keys.filter fun k => k ∉ c.skills.map (normSkill U)).Perm keys := by
    have h := List.filter_append_perm (fun k => decide (k ∈ c.skills.map (normSkill U))) keys
    simpa only [decide_not] using h
  have hnodup : keys.Nodup := hkeys ▸ (labelByKey U required).nodup_keys
  have hlen := hperm.length_eq
  rw [List.length_append] at hlen
  have hempty : (keys.filter (fun k => k ∈ c.skills.map (normSkill U)) ++
      keys.filter fun k => k ∉ c.skills.map (normSkill U)) = [] ↔ keys = [] := by
    rw [← List.length_eq_zero_iff, hperm.length_eq, List.length_eq_zero_iff]
  have hcoverage : (suggestionFor U (labelByKey U required) c).coverage = if keys = [] then 1
      else ((keys.filter fun k => k ∈ c.skills.map (normSkill U)).length : ℚ) / keys.length := by
    rw [suggestionFor, hkeys]
  simp only [suggestionFor, ← hkeys] at hcoverage ⊢
  refine ⟨⟨rfl, rfl, rfl⟩, ?_, fun k => ?_, fun s hs => ?_, fun s hs => ?_, ?_, ?_⟩
  · rw [List.map_append, map_norm_labels (hsub _), map_norm_labels (hsub _)]
    exact hperm.nodup_iff.mpr hnodup
  · rw [List.map_append, map_norm_labels (hsub _), map_norm_labels (hsub _), hperm.mem_iff, hkeys, mem_labelByKey]
  · obtain ⟨k, hk, rfl⟩ := List.mem_map.mp hs
    rw [norm_getD (hsub _ k hk)]
    have hhas : k ∈ c.skills.map (normSkill U) := by simpa using (List.mem_filter.mp hk).2
    exact List.mem_map.mp hhas
  · obtain ⟨k, hk, rfl⟩ := List.mem_map.mp hs
    rw [norm_getD (hsub _ k hk)]
    have hlacks : k ∉ c.skills.map (normSkill U) := by simpa using (List.mem_filter.mp hk).2
    exact fun t ht he => hlacks (List.mem_map.mpr ⟨t, ht, he⟩)
  · simp only [List.length_append, List.length_map, hlen, ← List.map_append, List.map_eq_nil_iff, hempty]
  · split
    · exact ⟨zero_le_one, le_rfl⟩
    · refine ⟨div_nonneg (Nat.cast_nonneg _) (Nat.cast_nonneg _), div_le_one_of_le₀ ?_ (Nat.cast_nonneg _)⟩
      exact_mod_cast Nat.le_of_add_right_le hlen.le

end Suggestions

section Ranking

instance : Std.Total AssigneeSuggestion.NotAfter := by
  refine ⟨fun a b => ?_⟩
  unfold AssigneeSuggestion.NotAfter
  rcases lt_trichotomy a.coverage b.coverage with h | h | h
  · exact Or.inr (Or.inl h)
  · rcases lt_trichotomy a.loadHours b.loadHours with h' | h' | h'
    · exact Or.inl (Or.inr ⟨h, Or.inl h'⟩)
    · rcases le_total a.name b.name with h'' | h''
      · exact Or.inl (Or.inr ⟨h, Or.inr ⟨h', h''⟩⟩)
      · exact Or.inr (Or.inr ⟨h.symm, Or.inr ⟨h'.symm, h''⟩⟩)
    · exact Or.inr (Or.inr ⟨h.symm, Or.inl h'⟩)
  · exact Or.inl (Or.inl h)

instance : IsTrans AssigneeSuggestion AssigneeSuggestion.NotAfter := by
  refine ⟨fun a b c hab hbc => ?_⟩
  unfold AssigneeSuggestion.NotAfter at hab hbc ⊢
  rcases hab with h | ⟨h, hab⟩
  · rcases hbc with h' | ⟨h', -⟩
    · exact Or.inl (h'.trans h)
    · exact Or.inl (h' ▸ h)
  · rcases hbc with h' | ⟨h', hbc⟩
    · exact Or.inl (h ▸ h')
    · refine Or.inr ⟨h.trans h', ?_⟩
      rcases hab with hl | ⟨hl, hn⟩
      · rcases hbc with hl' | ⟨hl', -⟩
        · exact Or.inl (hl.trans hl')
        · exact Or.inl (hl' ▸ hl)
      · rcases hbc with hl' | ⟨hl', hn'⟩
        · exact Or.inl (hl ▸ hl')
        · exact Or.inr ⟨hl.trans hl', hn.trans hn'⟩

end Ranking

/-- In the binding, or without one in the open pool. -/
def Eligible (includeExternal : Bool) (restrictTo : Option (List UUID)) (c : Candidate) : Prop :=
  if restrictTo.getD [] ≠ [] then c.personId ∈ restrictTo.getD [] else c.isExternal = true → includeExternal = true

instance (includeExternal : Bool) (restrictTo : Option (List UUID)) (c : Candidate) :
    Decidable (Eligible includeExternal restrictTo c) := by
  unfold Eligible
  infer_instance

theorem eligible_iff {includeExternal : Bool} {restrictTo : Option (List UUID)} {c : Candidate} :
    eligible includeExternal restrictTo c = true ↔ Eligible includeExternal restrictTo c := by
  by_cases hb : restrictTo.getD [] = []
  · cases includeExternal <;> simp [eligible, Eligible, hb]
  · simp [eligible, Eligible, hb]

/-- `new` is `old` with one skill more: a blank, or another spelling of a skill among `listed`. -/
def AddsSpelling (U : CharTables) (listed : List String → List String → List String) (old new : List String) : Prop :=
  ∃ pre s post, old = pre ++ post ∧ new = pre ++ s :: post ∧
    (strip s = "" ∨ ∃ t ∈ listed pre post, strip t ≠ "" ∧ normSkill U t = normSkill U s)

/-- The new spelling may stand anywhere, or only after an old one. -/
def AddsAnywhere (U : CharTables) : List String → List String → Prop := AddsSpelling U fun pre post => pre ++ post

def AddsAfter (U : CharTables) : List String → List String → Prop := AddsSpelling U fun pre _ => pre

/-- The same person with the same figures, whatever the spelling and the order of the skills. -/
structure SameButSpelling (U : CharTables) (a b : AssigneeSuggestion) : Prop where
  person : a.personId = b.personId ∧ a.name = b.name ∧ a.loadHours = b.loadHours
  coverage : a.coverage = b.coverage
  covered : (a.coveredSkills.map (normSkill U)).Perm (b.coveredSkills.map (normSkill U))
  missing : (a.missingSkills.map (normSkill U)).Perm (b.missingSkills.map (normSkill U))

section Additions

variable {U : CharTables} {old new : List String}

theorem trimmed_insert (pre : List String) (s : String) (post : List String) :
    trimmed (pre ++ s :: post) = trimmed pre ++ (if strip s = "" then [] else [strip s]) ++ trimmed post := by
  have hone : trimmed [s] = if strip s = "" then [] else [strip s] := by
    by_cases h : strip s = "" <;> simp [trimmed, h]
  rw [← hone, ← trimmed_append, ← trimmed_append, List.append_assoc]
  rfl

/-- A spelling that comes after another one is not looked at. -/
theorem labelByKey_addsAfter (h : AddsAfter U old new) : labelByKey U new = labelByKey U old := by
  obtain ⟨pre, s, post, rfl, rfl, hs⟩ := h
  rw [labelByKey_eq, labelByKey_eq, trimmed_insert, trimmed_append]
  split
  · rw [List.append_nil]
  · rename_i hne
    obtain ⟨t, ht, htne, hnorm⟩ := hs.resolve_left hne
    have hmem : normSkill U (strip s) ∈ ((trimmed pre).foldl (setLabel U) .empty).keys := by
      refine mem_keys_foldl.mpr (Or.inl ⟨strip t, ?_, by rw [normSkill_strip, normSkill_strip, hnorm]⟩)
      exact List.mem_filter.mpr ⟨List.mem_map_of_mem ht, by simpa using htne⟩
    rw [List.foldl_append, List.foldl_append, List.foldl_append, List.foldl_cons, List.foldl_nil, setLabel_of_mem hmem]

theorem wanted_addsAnywhere (h : AddsAnywhere U old new) (k : List Char) : Wanted U new k ↔ Wanted U old k := by
  obtain ⟨pre, s, post, rfl, rfl, hs⟩ := h
  constructor
  · rintro ⟨u, hu, hne, hk⟩
    rcases List.mem_append.mp hu with hu | hu
    · exact ⟨u, List.mem_append_left _ hu, hne, hk⟩
    · rcases List.mem_cons.mp hu with rfl | hu
      · obtain ⟨t, ht, htne, hnorm⟩ := hs.resolve_left hne
        exact ⟨t, ht, htne, hnorm.trans hk⟩
      · exact ⟨u, List.mem_append_right _ hu, hne, hk⟩
  · rintro ⟨u, hu, hne, hk⟩
    refine ⟨u, ?_, hne, hk⟩
    rcases List.mem_append.mp hu with hu | hu
    · exact List.mem_append_left _ hu
    · exact List.mem_append_right _ (List.mem_cons_of_mem _ hu)

theorem labelByKey_adds (h : Relation.ReflTransGen (AddsAfter U) old new) : labelByKey U new = labelByKey U old := by
  induction h with
  | refl => rfl
  | tail _ h ih => exact (labelByKey_addsAfter h).trans ih

theorem keys_adds (h : Relation.ReflTransGen (AddsAnywhere U) old new) :
    (labelByKey U new).keys.Perm (labelByKey U old).keys := by
  have hwanted : ∀ k, Wanted U new k ↔ Wanted U old k := by
    induction h with
    | refl => exact fun k => Iff.rfl
    | tail _ h ih => exact fun k => (wanted_addsAnywhere h k).trans (ih k)
  refine (List.perm_ext_iff_of_nodup (labelByKey U new).nodup_keys (labelByKey U old).nodup_keys).mpr fun k => ?_
  exact mem_labelByKey.trans ((hwanted k).trans mem_labelByKey.symm)

theorem suggestionFor_adds (h : Relation.ReflTransGen (AddsAnywhere U) old new) (c : Candidate) :
    SameButSpelling U (suggestionFor U (labelByKey U new) c) (suggestionFor U (labelByKey U old) c) := by
  have hperm := keys_adds h
  have hsub : ∀ (required : List String) (p : List Char → Bool), ∀ k ∈ (labelByKey U required).keys.filter p,
    k ∈ (labelByKey U required).keys := fun _ p k hk => List.mem_of_mem_filter hk
  refine ⟨⟨rfl, rfl, rfl⟩, ?_, ?_, ?_⟩
  · have hnil : (labelByKey U new).keys = [] ↔ (labelByKey U old).keys = [] := by
      rw [← List.length_eq_zero_iff, hperm.length_eq, List.length_eq_zero_iff]
    simp only [suggestionFor, hperm.length_eq, (hperm.filter _).length_eq, hnil]
  · simp only [suggestionFor]
    rw [map_norm_labels (hsub new _), map_norm_labels (hsub old _)]
    exact hperm.filter _
  · simp only [suggestionFor]
    rw [map_norm_labels (hsub new _), map_norm_labels (hsub old _)]
    exact hperm.filter _

theorem SameButSpelling.notAfter_iff {a a' b b' : AssigneeSuggestion} (ha : SameButSpelling U a a')
    (hb : SameButSpelling U b b') : a.NotAfter b ↔ a'.NotAfter b' := by
  simp only [AssigneeSuggestion.NotAfter, ha.coverage, hb.coverage, ha.person, hb.person]

end Additions

section Ranked

/-- Suggestions are ranked as their candidates are, by any function that compares them alike. -/
theorem insertionSort_map {f g : Candidate → AssigneeSuggestion}
    (h : ∀ a b, (g a).NotAfter (g b) ↔ (f a).NotAfter (f b)) (cs : List Candidate) :
    (cs.map f).insertionSort AssigneeSuggestion.NotAfter =
      (cs.insertionSort fun a b => (g a).NotAfter (g b)).map f :=
  (List.map_insertionSort _ _ f cs fun a _ b _ => h a b).symm

theorem upTo_forall₂ {α β : Type} {R : α → β → Prop} {l : List α} {l' : List β} (h : List.Forall₂ R l l') (n : Int) :
    List.Forall₂ R (upTo n l) (upTo n l') := by
  unfold upTo
  split
  · exact List.forall₂_take _ h
  · rw [h.length_eq]
    exact List.forall₂_take _ h

end Ranked

/-- The eligible candidates, each rightly described, ranked and cut off; another
spelling after the first one changes nothing, and elsewhere nothing but spelling and order of the skills. -/
theorem suggestAssignees_right (U : CharTables) (required : List String) (candidates : List Candidate)
    (includeExternal : Bool) (limit : Option Int) (restrictTo : Option (List UUID)) :
    (∃ cs ranked, cs.Perm (candidates.filter fun c => Eligible includeExternal restrictTo c) ∧
      List.Forall₂ (SuggestsRightly U required) cs ranked ∧ ranked.Pairwise AssigneeSuggestion.NotAfter ∧
      suggestAssignees U required candidates includeExternal limit restrictTo = limit.elim ranked fun n => upTo n ranked) ∧
    (∀ required', Relation.ReflTransGen (AddsAfter U) required required' →
      suggestAssignees U required' candidates includeExternal limit restrictTo =
        suggestAssignees U required candidates includeExternal limit restrictTo) ∧
    ∀ required', Relation.ReflTransGen (AddsAnywhere U) required required' → List.Forall₂ (SameButSpelling U)
      (suggestAssignees U required' candidates includeExternal limit restrictTo)
      (suggestAssignees U required candidates includeExternal limit restrictTo) := by
  have heligible : candidates.filter (eligible includeExternal restrictTo) =
      candidates.filter fun c => Eligible includeExternal restrictTo c :=
    List.filter_congr fun c _ => by rw [Bool.eq_iff_iff, eligible_iff, decide_eq_true_iff]
  refine ⟨?_, fun required' h => ?_, fun required' h => ?_⟩
  · refine ⟨_, _, List.perm_insertionSort (fun a b => (suggestionFor U (labelByKey U required) a).NotAfter
      (suggestionFor U (labelByKey U required) b)) _, ?_, List.pairwise_insertionSort AssigneeSuggestion.NotAfter
        ((candidates.filter (eligible includeExternal restrictTo)).map (suggestionFor U (labelByKey U required))), ?_⟩
    · rw [insertionSort_map (fun a b => Iff.rfl), heligible, List.forall₂_map_right_iff, List.forall₂_same]
      exact fun c _ => suggestsRightly c
    · cases limit <;> rfl
  · unfold suggestAssignees
    rw [labelByKey_adds h]
  · have hsame : List.Forall₂ (SameButSpelling U)
        (((candidates.filter (eligible includeExternal restrictTo)).map
          (suggestionFor U (labelByKey U required'))).insertionSort AssigneeSuggestion.NotAfter)
        (((candidates.filter (eligible includeExternal restrictTo)).map
          (suggestionFor U (labelByKey U required))).insertionSort AssigneeSuggestion.NotAfter) := by
      have hcompare : ∀ a b, (suggestionFor U (labelByKey U required) a).NotAfter
          (suggestionFor U (labelByKey U required) b) ↔ (suggestionFor U (labelByKey U required') a).NotAfter
            (suggestionFor U (labelByKey U required') b) := fun a b =>
        ((suggestionFor_adds h a).notAfter_iff (suggestionFor_adds h b)).symm
      rw [insertionSort_map hcompare, insertionSort_map (fun a b => Iff.rfl), List.forall₂_map_left_iff,
        List.forall₂_map_right_iff, List.forall₂_same]
      exact fun c _ => suggestionFor_adds h c
    cases limit with
    | none => exact hsame
    | some n => exact upTo_forall₂ hsame n

/-- The spelling that comes first is the one that is shown. -/
theorem spelling_shown : AddsAnywhere .plain ["Монтаж"] ["монтаж", "Монтаж"] ∧
    suggestAssignees .plain ["монтаж", "Монтаж"] [⟨1, "Анна", ["Монтаж"], false, 0⟩] false none none ≠
      suggestAssignees .plain ["Монтаж"] [⟨1, "Анна", ["Монтаж"], false, 0⟩] false none none := by
  refine ⟨⟨[], "монтаж", ["Монтаж"], rfl, rfl, Or.inr ⟨"Монтаж", by decide, by decide, by decide⟩⟩, by decide +kernel⟩

end Planner
