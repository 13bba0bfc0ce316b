import Planner.Patterns

/-! Resolving a name for any alphabet. The name that is found is the best match of
the roster; only if two names match equally well does their order decide. -/

namespace Planner

namespace CharTables

variable (U : CharTables)

/-- `_norm_name`. -/
def normName (s : String) : List Char := (U.lower (stripChars s.toList)).map fun c => if c = 'ё' then 'е' else c

/-- A word of the name equals or starts with the query. -/
def fitsWord (q : List Char) (c : String) : Bool :=
  (words (U.normName c)).any fun w => w == q || q.isPrefixOf w

/-- `match_person_name`. -/
def matchPersonName (candidates : List String) (query : String) : Option String :=
  let q := U.normName query
  if q.isEmpty then none
  else
    match candidates.find? fun c => U.normName c = q with
    | some exact => some exact
    | none => (candidates.filter (U.fitsWord q)).argmin String.length

/-- Exactly, or by one of its words. -/
def Matches (query c : String) : Prop :=
  U.normName query ≠ [] ∧ (U.normName c = U.normName query ∨ U.fitsWord (U.normName query) c = true)

/-- How well a name matches: exact names best, then the shorter the better. -/
def rank (query c : String) : Nat := if U.normName c = U.normName query then 0 else c.length + 1

/-- `c` matches, and nothing on the roster matches better. -/
structure Best (roster : List String) (query c : String) : Prop where
  mem : c ∈ roster
  fits : U.Matches query c
  least : ∀ d ∈ roster, U.Matches query d → U.rank query c ≤ U.rank query d

/-- What a user of names may rely on. -/
structure Predictable (roster : List String) (query : String) : Prop where
  order : ∀ roster' : List String, roster'.Perm roster →
    U.matchPersonName roster' query = U.matchPersonName roster query
  onRoster : ∀ c, U.matchPersonName roster query = some c → c ∈ roster
  exact : ∀ c ∈ roster, U.normName query ≠ [] → U.normName c = U.normName query →
    ∃ r, U.matchPersonName roster query = some r ∧ U.normName r = U.normName query
  fair : ∀ c ∈ roster, ∀ c' ∈ roster, c ≠ c' → U.Matches query c → U.Matches query c' →
    U.rank query c = U.rank query c' → U.matchPersonName roster query ≠ some c

end CharTables

/-- The matching of `Planner.Text` is the one of its alphabets. -/
theorem matchPersonName_plain (candidates : List String) (query : String) :
    CharTables.plain.matchPersonName candidates query = matchPersonName candidates query := by
  have hnorm : ∀ s, CharTables.plain.normName s = normName s := fun s => by
    simp [CharTables.normName, normName, CharTables.plain, Function.comp_def]
  have hfits : ∀ q : List Char, CharTables.plain.fitsWord q =
      fun c => (words (normName c)).any fun w => q.isPrefixOf w := by
    intro q
    funext c
    rw [CharTables.fitsWord, hnorm]
    refine congrArg _ (funext fun w => ?_)
    by_cases hw : w = q
    · subst hw
      simp
    · simp [hw]
  simp only [CharTables.matchPersonName, hnorm, hfits]
  rfl

section Match

variable {U : CharTables} {roster roster' : List String} {query c c' : String}

theorem best_of_match (h : U.matchPersonName roster query = some c) : U.Best roster query c := by
  unfold CharTables.matchPersonName at h
  dsimp only at h
  split at h
  · cases h
  · rename_i hq
    rw [List.isEmpty_iff] at hq
    split at h
    · rename_i exact hfind
      obtain rfl := Option.some.inj h
      have hexact : U.normName exact = U.normName query := of_decide_eq_true (List.find?_some hfind :)
      refine ⟨List.mem_of_find?_eq_some hfind, ⟨hq, Or.inl hexact⟩, fun d _ _ => ?_⟩
      rw [CharTables.rank, if_pos hexact]
      exact Nat.zero_le _
    · rename_i hnone
      have hinexact : ∀ d ∈ roster, U.normName d ≠ U.normName query := fun d hd he =>
        List.find?_eq_none.mp hnone d hd (decide_eq_true he)
      have hmem := List.mem_filter.mp (List.argmin_mem h)
      refine ⟨hmem.1, ⟨hq, Or.inr hmem.2⟩, fun d hd hmatch => ?_⟩
      have hfits := hmatch.2.resolve_left (hinexact d hd)
      rw [CharTables.rank, CharTables.rank, if_neg (hinexact c hmem.1), if_neg (hinexact d hd)]
      exact Nat.succ_le_succ (List.le_of_mem_argmin (List.mem_filter.mpr ⟨hd, hfits⟩) h)

theorem exists_match (hc : c ∈ roster) (hmatch : U.Matches query c) :
    ∃ r, U.matchPersonName roster query = some r := by
  by_contra hnone
  rw [← Option.isSome_iff_exists, Option.not_isSome_iff_eq_none] at hnone
  unfold CharTables.matchPersonName at hnone
  dsimp only at hnone
  split at hnone
  · rename_i hq
    exact hmatch.1 (List.isEmpty_iff.mp hq)
  · split at hnone
    · cases hnone
    · rename_i hfind
      have hinexact : U.normName c ≠ U.normName query := fun he =>
        List.find?_eq_none.mp hfind c hc (decide_eq_true he)
      have hfits := hmatch.2.resolve_left hinexact
      exact List.not_mem_nil (List.argmin_eq_none.mp hnone ▸ List.mem_filter.mpr ⟨hc, hfits⟩)

theorem CharTables.Best.perm (hperm : roster'.Perm roster) (h : U.Best roster' query c) : U.Best roster query c :=
  ⟨hperm.mem_iff.mp h.mem, h.fits, fun d hd => h.least d (hperm.mem_iff.mpr hd)⟩

/-- Names that match equally well, and best. -/
def CharTables.Tied (U : CharTables) (roster : List String) (query c c' : String) : Prop :=
  c ≠ c' ∧ U.Best roster query c ∧ U.Best roster query c'

theorem match_perm (hunique : ¬ ∃ c c', U.Tied roster query c c') (hperm : roster'.Perm roster) :
    U.matchPersonName roster' query = U.matchPersonName roster query := by
  cases hfound : U.matchPersonName roster' query with
  | none =>
    cases hfound' : U.matchPersonName roster query with
    | none => rfl
    | some c =>
      have hbest := best_of_match hfound'
      obtain ⟨r, hr⟩ := exists_match (hperm.mem_iff.mpr hbest.mem) hbest.fits
      cases hfound.symm.trans hr
  | some c =>
    have hbest := (best_of_match hfound).perm hperm
    obtain ⟨r, hr⟩ := exists_match hbest.mem hbest.fits
    rw [hr]
    by_contra hne
    exact hunique ⟨c, r, fun he => hne (he ▸ rfl), hbest, best_of_match hr⟩

end Match

/-- Names resolve predictably exactly if no two names on the roster match the
query equally well and better than all others. -/
theorem predictable_iff (U : CharTables) (roster : List String) (query : String) :
    U.Predictable roster query ↔ ¬ ∃ c c', U.Tied roster query c c' := by
  constructor
  · rintro h ⟨c, c', hne, hbest, hbest'⟩
    obtain ⟨r, hr⟩ := exists_match hbest.mem hbest.fits
    have hleast := best_of_match hr
    -- the name that is found is not both of the two
    obtain ⟨d, hd, hdr⟩ : ∃ d, U.Best roster query d ∧ r ≠ d := by
      by_cases hrc : r = c
      · exact ⟨c', hbest', fun he => hne (hrc.symm.trans he)⟩
      · exact ⟨c, hbest, hrc⟩
    have hrank : U.rank query r = U.rank query d :=
      le_antisymm (hleast.least d hd.mem hd.fits) (hd.least r hleast.mem hleast.fits)
    exact h.fair r hleast.mem d hd.mem hdr hleast.fits hd.fits hrank hr
  · intro hunique
    refine ⟨fun roster' hperm => match_perm hunique hperm, fun c hc => (best_of_match hc).mem,
      fun c hc hq hexact => ?_, fun c hc c' hc' hne hmatch hmatch' hrank hfound => ?_⟩
    · obtain ⟨r, hr⟩ := exists_match hc ⟨hq, Or.inl hexact⟩
      refine ⟨r, hr, ?_⟩
      have hle := (best_of_match hr).least c hc ⟨hq, Or.inl hexact⟩
      simp only [CharTables.rank, if_pos hexact] at hle
      by_contra hinexact
      rw [if_neg hinexact] at hle
      exact Nat.not_succ_le_zero _ hle
    · have hbest := best_of_match hfound
      exact hunique ⟨c, c', hne, hbest, hc', hmatch', fun d hd hmd => hrank ▸ hbest.least d hd hmd⟩

/-- Two women of one first name: the order of the rows decides whose work it is. -/
theorem namesakes_by_position :
    ¬ CharTables.plain.Predictable ["Анна Бек", "Анна Кох"] "Анна" := by
  intro h
  have hswap := h.order ["Анна Кох", "Анна Бек"] (List.Perm.swap _ _ _)
  revert hswap
  decide

end Planner
