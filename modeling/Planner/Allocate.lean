import Planner.CapacityIndex

/-! Where one task may start and the four ways of placing it. Every allocator
falls back to the first working day when the horizon has no room. -/

namespace Planner

/-- Edge attributes of the dependency graph. -/
structure Link where
  linkType : LinkType
  lag : Int
  deriving DecidableEq, Repr

abbrev Dag := EdgeGraph UUID Link

def buildDag (tasks : List Task) (deps : List Dependency) : Dag :=
  deps.foldl (fun g d => g.addEdge d.dependsOnId d.taskId ⟨d.linkType, d.lagWorkingDays⟩)
    (tasks.foldl (fun g t => g.addNode t.id) EdgeGraph.empty)

/-- The day one resolved edge allows, given the predecessor's placement. -/
def linkStart (cal : WorkingCalendar) (edge : Link) (a : Assignment) : Date :=
  let base := if edge.linkType = .FS then cal.nextWorkingDay a.endDate else a.startDate
  if h : 0 < edge.lag then nthWorkingDay cal base ⟨edge.lag.toNat, by omega⟩
  else firstWorkingDay cal base

/-- One predecessor of the loop: a dependency that is not placed is skipped. -/
def raiseStart (cal : WorkingCalendar) (graph : Dag) (assignments : OrdDict UUID Assignment)
    (tid : UUID) (est : Date) (depId : UUID) : Date :=
  match assignments.get? depId, graph.label? depId tid with
  | some a, some edge => let cand := linkStart cal edge a; if est < cand then cand else est
  | _, _ => est

/-- Raises the start past every dependency that is already placed. -/
def earliestStart (task : Task) (graph : Dag) (assignments : OrdDict UUID Assignment)
    (horizonStart : Date) (cal : WorkingCalendar) : Date :=
  (graph.predecessors task.id).foldl (raiseStart cal graph assignments task.id) horizonStart

/-- Allocations with the dates they span. -/
structure Placement where
  allocs : List DayAllocation
  startDate : Date
  endDate : Date
  start_le : startDate ≤ endDate
  within : ∀ a ∈ allocs, startDate ≤ a.day ∧ a.day ≤ endDate

/-- `idx.remaining(p, day) >= hours` for one participant after the other,
stopping at the first who has no room. -/
def fitsAll (idx : CapacityIndex) : List UUID → Date → Int → Bool × CapacityIndex
  | [], _, _ => (true, idx)
  | p :: ps, day, hours =>
    let (remaining, idx) := idx.remaining p day
    if hours ≤ remaining then fitsAll idx ps day hours else (false, idx)

/-- The `while day <= horizon_limit` search over the `fuel` days that are left. -/
def searchDay (cal : WorkingCalendar) (participants : List UUID) (hours : Int) :
    Nat → Date → CapacityIndex → Option Date × CapacityIndex
  | 0, _, idx => (none, idx)
  | fuel + 1, day, idx =>
    if cal.isWorkingDay day then
      let (fits, idx) := fitsAll idx participants day hours
      if fits then (some day, idx) else searchDay cal participants hours fuel (day + 1) idx
    else searchDay cal participants hours fuel (day + 1) idx

/-- Gives every participant the whole task on one day. -/
def Placement.onDay (participants : List UUID) (day : Date) (hours : Int) : Placement where
  allocs := participants.map fun p => ⟨p, day, hours⟩
  startDate := day
  endDate := day
  start_le := le_rfl
  within a ha := by
    obtain ⟨p, -, rfl⟩ := List.mem_map.mp ha
    exact ⟨le_rfl, le_rfl⟩

/-- The earliest day on which every participant has room, else the first
working day as a dump that the overload scan will flag. -/
def allocateTogether (participants : List UUID) (task : Task) (earliest : Date)
    (cal : WorkingCalendar) (idx : CapacityIndex) (horizonLimit : Date) :
    Placement × CapacityIndex :=
  let day := firstWorkingDay cal earliest
  let (placed, idx) :=
    searchDay cal participants task.durationHours (horizonLimit + 1 - day) day idx
  (.onDay participants (placed.getD (firstWorkingDay cal earliest)) task.durationHours, idx)

def allocateSingle (task : Task) (person : Person) : Date → WorkingCalendar → CapacityIndex →
    Date → Placement × CapacityIndex :=
  allocateTogether [person.id] task

/-- Each of the two works the full duration on the same day. -/
def allocatePair (task : Task) (p1 p2 : Person) : Date → WorkingCalendar → CapacityIndex →
    Date → Placement × CapacityIndex :=
  allocateTogether [p1.id, p2.id] task

inductive PlanError
  | noPeople
  | networkXUnfeasible
  /-- `min()` of no allocations: a splittable task without hours. -/
  | emptySequence
  /-- `allowed[0]` and `assert best is not None`; never reached. -/
  | noCandidate
  /-- `tasks_by_id[tid]` of a node that is no task. -/
  | missingTask
  deriving DecidableEq, Repr

/-- The day-by-day loop of a split placement: what it books and what is left over. -/
def splitLoop (cal : WorkingCalendar) (personId : UUID) :
    Nat → Date → Int → CapacityIndex → List DayAllocation × Int × CapacityIndex
  | 0, _, remaining, idx => ([], remaining, idx)
  | fuel + 1, day, remaining, idx =>
    if remaining ≤ 0 then ([], remaining, idx)
    else if cal.isWorkingDay day then
      let (cap, idx) := idx.remaining personId day
      if 0 < cap then
        let take := min cap remaining
        let (allocs, rest, idx) := splitLoop cal personId fuel (day + 1) (remaining - take) idx
        (⟨personId, day, take⟩ :: allocs, rest, idx)
      else splitLoop cal personId fuel (day + 1) remaining idx
    else splitLoop cal personId fuel (day + 1) remaining idx

/-- From the first to the last allocated day. -/
def Placement.spanning (allocs : List DayAllocation) : Except PlanError Placement :=
  match hs : (allocs.map DayAllocation.day).min?, he : (allocs.map DayAllocation.day).max? with
  | some s, some e =>
    have hmin : ∀ a ∈ allocs, s ≤ a.day := fun _ ha =>
      (List.min?_eq_some_iff.mp hs).2 _ (List.mem_map_of_mem ha)
    have hmax : ∀ a ∈ allocs, a.day ≤ e := fun _ ha =>
      (List.max?_eq_some_iff.mp he).2 _ (List.mem_map_of_mem ha)
    .ok ⟨allocs, s, e, (List.max?_eq_some_iff.mp he).2 _ (List.min?_eq_some_iff.mp hs).1,
      fun a ha => ⟨hmin a ha, hmax a ha⟩⟩
  | _, _ => .error .emptySequence

def allocateSplit (task : Task) (person : Person) (earliest : Date) (cal : WorkingCalendar)
    (idx : CapacityIndex) (horizonLimit : Date) : Except PlanError (Placement × CapacityIndex) :=
  let day := firstWorkingDay cal earliest
  let (allocs, remaining, idx) :=
    splitLoop cal person.id (horizonLimit + 1 - day) day task.durationHours idx
  -- horizon saturated: the remainder goes on the start day
  let allocs := if 0 < remaining then
    allocs ++ [⟨person.id, firstWorkingDay cal earliest, remaining⟩] else allocs
  (Placement.spanning allocs).map fun p => (p, idx)

def allocate (task : Task) (person : Person) (earliest : Date) (cal : WorkingCalendar)
    (idx : CapacityIndex) (horizonLimit : Date) : Except PlanError (Placement × CapacityIndex) :=
  if task.isSplittable then allocateSplit task person earliest cal idx horizonLimit
  else .ok (allocateSingle task person earliest cal idx horizonLimit)

/-- Nominal working-day length of a window task. -/
def dayHours : Int := 8

/-- `max(1, -(-duration_hours // DAY_HOURS))`. -/
def windowSpan (task : Task) : ℕ+ :=
  ⟨(max 1 (-(-task.durationHours / dayHours))).toNat, by omega⟩

/-- A fixed calendar window that takes nobody's hours. -/
def allocateWindow (task : Task) (earliest : Date) (cal : WorkingCalendar) : Placement where
  allocs := []
  startDate := firstWorkingDay cal earliest
  endDate := nthWorkingDay cal (firstWorkingDay cal earliest) (windowSpan task)
  start_le := (le_firstWorkingDay _).trans (firstWorkingDay_le_nthWorkingDay _ _)
  within := by simp

/-- The first of the `fuel` days from `day` on that is a working day with room
for `hours` of every participant. -/
def firstFit (cal : WorkingCalendar) (free : UUID → Date → Int) (participants : List UUID)
    (hours : Int) (fuel : Nat) (day : Date) : Option Date :=
  (List.range' day fuel).find? fun d =>
    cal.isWorkingDay d && participants.all fun p => hours ≤ free p d

/-- `splitLoop` as a function of the remaining capacities alone. -/
def fillDays (cal : WorkingCalendar) (free : UUID → Date → Int) (personId : UUID) :
    Nat → Date → Int → List DayAllocation × Int
  | 0, _, remaining => ([], remaining)
  | fuel + 1, day, remaining =>
    if remaining ≤ 0 then ([], remaining)
    else if cal.isWorkingDay day ∧ 0 < free personId day then
      let take := min (free personId day) remaining
      let (allocs, rest) := fillDays cal free personId fuel (day + 1) (remaining - take)
      (⟨personId, day, take⟩ :: allocs, rest)
    else fillDays cal free personId fuel (day + 1) remaining

open CapacityIndex

theorem fitsAll_spec (idx : CapacityIndex) (ps : List UUID) (day : Date) (hours : Int) :
    (fitsAll idx ps day hours).1 = ps.all (fun p => hours ≤ idx.free p day) ∧
      SameLoad idx (fitsAll idx ps day hours).2 := by
  induction ps generalizing idx with
  | nil => exact ⟨rfl, SameLoad.refl idx⟩
  | cons p ps ih =>
    have ht := sameLoad_touch idx p day
    have hh := ih (idx.touch p day)
    have hr : idx.remaining p day = (idx.free p day, idx.touch p day) := rfl
    simp only [fitsAll, hr, List.all_cons]
    by_cases hf : hours ≤ idx.free p day
    · simp only [hf, if_true, hh.1, ht.free, decide_true, Bool.true_and]
      exact ⟨trivial, ht.trans hh.2⟩
    · simpa [hf] using ht

theorem searchDay_spec (cal : WorkingCalendar) (ps : List UUID) (hours : Int) (fuel : Nat)
    (day : Date) (idx : CapacityIndex) :
    (searchDay cal ps hours fuel day idx).1 = firstFit cal idx.free ps hours fuel day ∧
      SameLoad idx (searchDay cal ps hours fuel day idx).2 := by
  induction fuel generalizing day idx with
  | zero => exact ⟨rfl, SameLoad.refl idx⟩
  | succ fuel ih =>
    have hf := fitsAll_spec idx ps day hours
    simp only [firstFit] at ih ⊢
    rw [List.range'_succ, List.find?_cons]
    simp only [searchDay]
    by_cases hw : cal.isWorkingDay day = true
    · rw [← hf.1]
      by_cases hfit : (fitsAll idx ps day hours).1 = true
      · simp only [hw, hfit, if_true, Bool.and_self]
        exact ⟨trivial, hf.2⟩
      · have hh := ih (day + 1) (fitsAll idx ps day hours).2
        rw [hf.2.free] at hh
        simp only [hw, hfit, if_true, Bool.and_false]
        exact ⟨hh.1, hf.2.trans hh.2⟩
    · have hh := ih (day + 1) idx
      simp only [hw, Bool.false_and]
      exact hh

theorem firstFit_eq_some_iff {cal : WorkingCalendar} {free : UUID → Date → Int} {ps : List UUID}
    {hours : Int} {fuel : Nat} {day d : Date} :
    firstFit cal free ps hours fuel day = some d ↔
      (cal.isWorkingDay d = true ∧ ∀ p ∈ ps, hours ≤ free p d) ∧ (day ≤ d ∧ d < day + fuel) ∧
      ∀ e, day ≤ e → e < d → cal.isWorkingDay e = true → ∃ p ∈ ps, free p e < hours := by
  simp only [firstFit, List.find?_range'_eq_some, Bool.and_eq_true, List.all_eq_true,
    decide_eq_true_eq, List.mem_range'_1, Bool.not_eq_eq_eq_not, Bool.not_true,
    Bool.and_eq_false_imp, List.all_eq_false, not_le]

theorem firstFit_eq_none_iff {cal : WorkingCalendar} {free : UUID → Date → Int} {ps : List UUID}
    {hours : Int} {fuel : Nat} {day : Date} :
    firstFit cal free ps hours fuel day = none ↔
      ∀ e, day ≤ e → e < day + fuel → cal.isWorkingDay e = true → ∃ p ∈ ps, free p e < hours := by
  simp only [firstFit, List.find?_eq_none, List.mem_range'_1, Bool.and_eq_true, List.all_eq_true,
    decide_eq_true_eq, not_and, and_imp, not_forall, not_le, exists_prop]

theorem splitLoop_spec (cal : WorkingCalendar) (pid : UUID) (fuel : Nat) (day : Date)
    (remaining : Int) (idx : CapacityIndex) :
    (splitLoop cal pid fuel day remaining idx).1 =
        (fillDays cal idx.free pid fuel day remaining).1 ∧
      (splitLoop cal pid fuel day remaining idx).2.1 =
        (fillDays cal idx.free pid fuel day remaining).2 ∧
      SameLoad idx (splitLoop cal pid fuel day remaining idx).2.2 := by
  induction fuel generalizing day remaining idx with
  | zero => exact ⟨rfl, rfl, SameLoad.refl idx⟩
  | succ fuel ih =>
    have ht := sameLoad_touch idx pid day
    have hr : idx.remaining pid day = (idx.free pid day, idx.touch pid day) := rfl
    simp only [splitLoop, fillDays, hr]
    by_cases h0 : remaining ≤ 0
    · simp only [h0, if_true]
      exact ⟨trivial, trivial, SameLoad.refl idx⟩
    · by_cases hw : cal.isWorkingDay day = true
      · by_cases hc : 0 < idx.free pid day
        · have hh := ih (day + 1) (remaining - min (idx.free pid day) remaining) (idx.touch pid day)
          rw [ht.free] at hh
          simp only [h0, hw, hc, if_true, if_false, and_self, hh.1, hh.2.1]
          exact ⟨trivial, trivial, ht.trans hh.2.2⟩
        · have hh := ih (day + 1) remaining (idx.touch pid day)
          rw [ht.free] at hh
          simp only [h0, hw, hc, if_true, if_false, and_false]
          exact ⟨hh.1, hh.2.1, ht.trans hh.2.2⟩
      · have hh := ih (day + 1) remaining idx
        simp only [h0, hw, if_false, false_and, Bool.false_eq_true]
        exact hh

/-- What a single candidate would get, as a function of the remaining capacities. -/
def placementOf (task : Task) (personId : UUID) (earliest : Date) (cal : WorkingCalendar)
    (free : UUID → Date → Int) (horizonLimit : Date) : Except PlanError Placement :=
  let day := firstWorkingDay cal earliest
  let fuel := horizonLimit + 1 - day
  if task.isSplittable then
    let filled := fillDays cal free personId fuel day task.durationHours
    Placement.spanning
      (if 0 < filled.2 then filled.1 ++ [⟨personId, day, filled.2⟩] else filled.1)
  else .ok (.onDay [personId]
    ((firstFit cal free [personId] task.durationHours fuel day).getD day) task.durationHours)

theorem allocateTogether_spec (ps : List UUID) (task : Task) (earliest : Date)
    (cal : WorkingCalendar) (idx : CapacityIndex) (limit : Date) :
    (allocateTogether ps task earliest cal idx limit).1 =
        .onDay ps ((firstFit cal idx.free ps task.durationHours
          (limit + 1 - firstWorkingDay cal earliest) (firstWorkingDay cal earliest)).getD
            (firstWorkingDay cal earliest)) task.durationHours ∧
      SameLoad idx (allocateTogether ps task earliest cal idx limit).2 := by
  have hh := searchDay_spec cal ps task.durationHours
    (limit + 1 - firstWorkingDay cal earliest) (firstWorkingDay cal earliest) idx
  simp only [allocateTogether, hh.1]
  exact ⟨trivial, hh.2⟩

theorem allocate_eq (task : Task) (person : Person) (earliest : Date) (cal : WorkingCalendar)
    (idx : CapacityIndex) (limit : Date) :
    (allocate task person earliest cal idx limit).map Prod.fst =
      placementOf task person.id earliest cal idx.free limit := by
  unfold allocate placementOf
  split
  · have hh := splitLoop_spec cal person.id (limit + 1 - firstWorkingDay cal earliest)
      (firstWorkingDay cal earliest) task.durationHours idx
    simp only [allocateSplit, hh.1, hh.2.1]
    cases Placement.spanning _ <;> rfl
  · simp only [Except.map, allocateSingle, (allocateTogether_spec _ _ _ _ _ _).1]

theorem allocate_sameLoad {task : Task} {person : Person} {earliest : Date}
    {cal : WorkingCalendar} {idx idx' : CapacityIndex} {limit : Date} {p : Placement}
    (h : allocate task person earliest cal idx limit = .ok (p, idx')) : SameLoad idx idx' := by
  unfold allocate at h
  split at h
  · have hh := splitLoop_spec cal person.id (limit + 1 - firstWorkingDay cal earliest)
      (firstWorkingDay cal earliest) task.durationHours idx
    simp only [allocateSplit, Except.map] at h
    split at h
    · cases h
    · simp only [Except.ok.injEq, Prod.mk.injEq] at h
      exact h.2 ▸ hh.2.2
  · simp only [Except.ok.injEq] at h
    have hh := (allocateTogether_spec [person.id] task earliest cal idx limit).2
    rwa [show allocateTogether [person.id] task earliest cal idx limit = (p, idx') from h] at hh

theorem Placement.spanning_ok {allocs : List DayAllocation} {p : Placement}
    (h : Placement.spanning allocs = .ok p) :
    p.allocs = allocs ∧ ∃ a ∈ allocs, a.day = p.startDate := by
  unfold Placement.spanning at h
  split at h
  · rename_i s e hs he
    obtain rfl := Except.ok.inj h
    exact ⟨rfl, List.mem_map.mp (List.min?_eq_some_iff.mp hs).1⟩
  · cases h

theorem mem_fillDays {cal : WorkingCalendar} {free : UUID → Date → Int} {pid : UUID} {fuel : Nat}
    {day : Date} {remaining : Int} {a : DayAllocation}
    (h : a ∈ (fillDays cal free pid fuel day remaining).1) :
    a.personId = pid ∧ day ≤ a.day ∧ cal.isWorkingDay a.day = true ∧
      0 < a.hours ∧ a.hours ≤ free pid a.day := by
  induction fuel generalizing day remaining with
  | zero => simp [fillDays] at h
  | succ fuel ih =>
    simp only [fillDays] at h
    split at h
    · simp at h
    · rename_i h0
      split at h
      · rename_i hc
        rcases List.mem_cons.mp h with rfl | h
        · exact ⟨rfl, le_rfl, hc.1, by simp only; omega, min_le_left _ _⟩
        · have hh := ih h
          exact ⟨hh.1, by lia, hh.2.2⟩
      · have hh := ih h
        exact ⟨hh.1, by lia, hh.2.2⟩

theorem placementOf_start {task : Task} {pid : UUID} {earliest : Date} {cal : WorkingCalendar}
    {free : UUID → Date → Int} {limit : Date} {p : Placement}
    (h : placementOf task pid earliest cal free limit = .ok p) :
    firstWorkingDay cal earliest ≤ p.startDate := by
  unfold placementOf at h
  split at h
  · obtain ⟨-, a, ha, hs⟩ := Placement.spanning_ok h
    rw [← hs]
    split at ha
    · rcases List.mem_append.mp ha with ha | ha
      · exact (mem_fillDays ha).2.1
      · rw [List.mem_singleton.mp ha]
    · exact (mem_fillDays ha).2.1
  · obtain rfl := Except.ok.inj h
    simp only [Placement.onDay]
    cases hf : firstFit cal free [pid] task.durationHours _ (firstWorkingDay cal earliest) with
    | none => exact le_rfl
    | some d => exact (firstFit_eq_some_iff.mp hf).2.1.1

end Planner
