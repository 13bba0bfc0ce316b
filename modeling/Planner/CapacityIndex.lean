import Planner.Models

/-! Used hours per (person, day) and the capacity that remains. The table of
used hours is a defaultdict: looking a day up stores a zero for it. The
ceiling is fixed when the index is built. -/

namespace Planner

/-- Capacity ceiling for a day: overrides win, days off are 0, strangers have none. -/
def capacityOn (people : List Person) (cal : WorkingCalendar) (dayOverrides : List DayOverride)
    (personId : UUID) (day : Date) : Int :=
  let cap := OrdDict.ofList (people.map fun p => (p.id, p.capacityH))
  let override := OrdDict.ofList (dayOverrides.map fun o => ((o.personId, o.day), o.capacityH))
  match override.get? (personId, day) with
  | some capacity => capacity
  | none => if !cal.isWorkingDay day then 0 else cap.getD personId 0

structure CapacityIndex where
  baseCapacity : UUID → Date → Int
  used : OrdDict (UUID × Date) Int

namespace CapacityIndex

def addHours (used : OrdDict (UUID × Date) Int) (a : DayAllocation) : OrdDict (UUID × Date) Int :=
  used.insert (a.personId, a.day) (used.getD (a.personId, a.day) 0 + a.hours)

def init (people : List Person) (cal : WorkingCalendar) (dayOverrides : List DayOverride)
    (existing : List DayAllocation) : CapacityIndex where
  baseCapacity := capacityOn people cal dayOverrides
  used := existing.foldl addHours OrdDict.empty

/-- What a lookup does to the defaultdict. -/
def touch (idx : CapacityIndex) (personId : UUID) (day : Date) : CapacityIndex :=
  if idx.used.contains (personId, day) then idx
  else { idx with used := idx.used.insert (personId, day) 0 }

def remaining (idx : CapacityIndex) (personId : UUID) (day : Date) : Int × CapacityIndex :=
  (idx.baseCapacity personId day - idx.used.getD (personId, day) 0, idx.touch personId day)

def occupy (idx : CapacityIndex) (allocations : List DayAllocation) : CapacityIndex :=
  { idx with used := allocations.foldl addHours idx.used }

/-- `(personId, day, used, base)` wherever used exceeds base. -/
def overloads (idx : CapacityIndex) : List (UUID × Date × Int × Int) :=
  idx.used.entries.filterMap fun e =>
    let base := idx.baseCapacity e.1.1 e.1.2
    if base < e.2 then some (e.1.1, e.1.2, e.2, base) else none

def usedOn (idx : CapacityIndex) (personId : UUID) (day : Date) : Int :=
  idx.used.getD (personId, day) 0

/-- The value `remaining` answers, without its side effect. -/
def free (idx : CapacityIndex) (personId : UUID) (day : Date) : Int :=
  idx.baseCapacity personId day - idx.usedOn personId day

/-- Two indexes that differ only in days looked up but never booked. -/
structure SameLoad (idx idx' : CapacityIndex) : Prop where
  baseCapacity : idx'.baseCapacity = idx.baseCapacity
  usedOn : ∀ p d, idx'.usedOn p d = idx.usedOn p d
  keys : idx.used.keys ⊆ idx'.used.keys

namespace SameLoad

theorem refl (idx : CapacityIndex) : SameLoad idx idx :=
  ⟨rfl, fun _ _ => rfl, List.Subset.refl _⟩

theorem trans {a b c : CapacityIndex} (h : SameLoad a b) (h' : SameLoad b c) : SameLoad a c :=
  ⟨h'.baseCapacity.trans h.baseCapacity, fun p d => (h'.usedOn p d).trans (h.usedOn p d),
    fun _ hk => h'.keys (h.keys hk)⟩

theorem free {idx idx' : CapacityIndex} (h : SameLoad idx idx') : idx'.free = idx.free := by
  funext p d
  simp only [CapacityIndex.free, h.baseCapacity, h.usedOn]

end SameLoad

theorem sameLoad_touch (idx : CapacityIndex) (p : UUID) (d : Date) :
    SameLoad idx (idx.touch p d) := by
  unfold touch
  split
  · exact SameLoad.refl idx
  · rename_i h
    refine ⟨rfl, fun q e => ?_, fun k hk => OrdDict.mem_keys_insert.mpr (Or.inr hk)⟩
    simp only [usedOn, OrdDict.getD, OrdDict.get?_insert]
    split
    · rename_i hk
      rw [hk, Option.not_isSome_iff_eq_none.mp h]
      rfl
    · rfl

theorem getD_addHours (used : OrdDict (UUID × Date) Int) (a : DayAllocation) (p : UUID) (d : Date) :
    (addHours used a).getD (p, d) 0 =
      used.getD (p, d) 0 + if a.personId = p ∧ a.day = d then a.hours else 0 := by
  simp only [addHours, OrdDict.getD, OrdDict.get?_insert, Prod.mk.injEq]
  by_cases h : p = a.personId ∧ d = a.day
  · obtain ⟨rfl, rfl⟩ := h
    simp
  · have h' : ¬ (a.personId = p ∧ a.day = d) := fun hh => h ⟨hh.1.symm, hh.2.symm⟩
    simp [h, h']

theorem getD_foldl_addHours (as : List DayAllocation) (used : OrdDict (UUID × Date) Int)
    (p : UUID) (d : Date) :
    (as.foldl addHours used).getD (p, d) 0 = used.getD (p, d) 0 + hoursOn as p d := by
  induction as generalizing used with
  | nil => simp
  | cons a as ih =>
    rw [List.foldl_cons, ih, getD_addHours, hoursOn_cons]
    omega

theorem mem_keys_foldl_addHours {as : List DayAllocation} {used : OrdDict (UUID × Date) Int}
    {k : UUID × Date} :
    k ∈ (as.foldl addHours used).keys ↔
      (∃ a ∈ as, (a.personId, a.day) = k) ∨ k ∈ used.keys := by
  induction as generalizing used with
  | nil => simp
  | cons a as ih =>
    rw [List.foldl_cons, ih, addHours, OrdDict.mem_keys_insert, List.exists_mem_cons_iff,
      eq_comm (a := k), or_left_comm, or_assoc]

@[simp] theorem usedOn_occupy (idx : CapacityIndex) (as : List DayAllocation) (p : UUID) (d : Date) :
    (idx.occupy as).usedOn p d = idx.usedOn p d + hoursOn as p d :=
  getD_foldl_addHours as idx.used p d

@[simp] theorem baseCapacity_occupy (idx : CapacityIndex) (as : List DayAllocation) :
    (idx.occupy as).baseCapacity = idx.baseCapacity := rfl

@[simp] theorem free_occupy (idx : CapacityIndex) (as : List DayAllocation) (p : UUID) (d : Date) :
    (idx.occupy as).free p d = idx.free p d - hoursOn as p d := by
  simp only [free, usedOn_occupy, baseCapacity_occupy]
  omega

@[simp] theorem usedOn_init (people : List Person) (cal : WorkingCalendar)
    (os : List DayOverride) (existing : List DayAllocation) (p : UUID) (d : Date) :
    (init people cal os existing).usedOn p d = hoursOn existing p d := by
  simp only [usedOn, init, getD_foldl_addHours]
  simp [OrdDict.getD]

theorem mem_overloads {idx : CapacityIndex} {p : UUID} {d : Date} {u b : Int} :
    (p, d, u, b) ∈ idx.overloads ↔
      (p, d) ∈ idx.used.keys ∧ u = idx.usedOn p d ∧ b = idx.baseCapacity p d ∧ b < u := by
  simp only [overloads, List.mem_filterMap, Option.ite_none_right_eq_some, Option.some.injEq,
    Prod.mk.injEq, Prod.exists]
  constructor
  · rintro ⟨p', d', u', hm, hlt, rfl, rfl, rfl, rfl⟩
    have hg := OrdDict.get?_eq_some_iff.mpr hm
    refine ⟨OrdDict.mem_keys.mpr (by simp [hg]), ?_, rfl, hlt⟩
    simp [usedOn, OrdDict.getD, hg]
  · rintro ⟨hk, rfl, rfl, hlt⟩
    obtain ⟨u, hu⟩ := Option.isSome_iff_exists.mp (OrdDict.mem_keys.mp hk)
    have he : idx.usedOn p d = u := by simp [usedOn, OrdDict.getD, hu]
    exact ⟨p, d, u, OrdDict.get?_eq_some_iff.mp hu, by omega, rfl, rfl, he.symm, rfl⟩

/-- A day that was never looked up nor booked carries no hours. -/
theorem usedOn_eq_zero {idx : CapacityIndex} {p : UUID} {d : Date} (h : (p, d) ∉ idx.used.keys) :
    idx.usedOn p d = 0 := by
  simp [usedOn, OrdDict.getD, OrdDict.get?_eq_none_iff.mpr h]

end CapacityIndex

end Planner
