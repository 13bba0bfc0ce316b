import Planner.PinnedHours

/-! The rows of the existing load and of the overrides come in any order: two
runs of the scheduler whose capacity indexes hold the same hours take the same
decisions and leave indexes that hold the same hours again. -/

namespace Planner

/-- The same error, or results that are related. -/
inductive SameOutcome {ε α β : Type} (R : α → β → Prop) : Except ε α → Except ε β → Prop
  | error (e : ε) : SameOutcome R (.error e) (.error e)
  | ok {a : α} {b : β} (h : R a b) : SameOutcome R (.ok a) (.ok b)

theorem SameOutcome.or {ε α β : Type} {R : α → β → Prop} {x : Except ε α} {y : Except ε β} (h : SameOutcome R x y) :
    (∃ e, x = .error e ∧ y = .error e) ∨ ∃ a b, x = .ok a ∧ y = .ok b ∧ R a b := by
  cases h with
  | error e => exact Or.inl ⟨e, rfl, rfl⟩
  | ok h => exact Or.inr ⟨_, _, rfl, rfl, h⟩

namespace CapacityIndex

/-- The same ceilings, and the same days looked up or booked with the same hours. -/
structure Alike (idx idx' : CapacityIndex) : Prop where
  base : idx'.baseCapacity = idx.baseCapacity
  used : ∀ k, idx'.used.get? k = idx.used.get? k

/-- What a step answers is the same, and the indexes are alike after it. -/
structure AlikeAfter {α : Type} (r r' : α × CapacityIndex) : Prop where
  answer : r'.1 = r.1
  idx : r.2.Alike r'.2

section Steps

variable {idx idx' : CapacityIndex}

theorem Alike.usedOn (h : idx.Alike idx') (p : UUID) (d : Date) : idx'.usedOn p d = idx.usedOn p d := by
  simp only [CapacityIndex.usedOn, OrdDict.getD, h.used]

theorem Alike.keys (h : idx.Alike idx') (k : UUID × Date) : k ∈ idx'.used.keys ↔ k ∈ idx.used.keys := by
  rw [OrdDict.mem_keys, OrdDict.mem_keys, h.used]

theorem get?_foldl_addHours (as : List DayAllocation) {used used' : OrdDict (UUID × Date) Int}
    (h : ∀ k, used'.get? k = used.get? k) (k : UUID × Date) :
    (as.foldl addHours used').get? k = (as.foldl addHours used).get? k := by
  induction as generalizing used used' with
  | nil => exact h k
  | cons a as ih =>
    rw [List.foldl_cons, List.foldl_cons]
    refine ih fun k' => ?_
    simp only [addHours, OrdDict.getD, OrdDict.get?_insert, h]

theorem Alike.occupy (h : idx.Alike idx') (as : List DayAllocation) : (idx.occupy as).Alike (idx'.occupy as) :=
  ⟨h.base, get?_foldl_addHours as h.used⟩

theorem Alike.touch (h : idx.Alike idx') (p : UUID) (d : Date) : (idx.touch p d).Alike (idx'.touch p d) := by
  have hcontains : idx'.used.contains (p, d) = idx.used.contains (p, d) := by
    simp only [OrdDict.contains, h.used]
  unfold CapacityIndex.touch
  rw [hcontains]
  split
  · exact h
  · refine ⟨h.base, fun k => ?_⟩
    simp only [OrdDict.get?_insert, h.used]

theorem Alike.remaining (h : idx.Alike idx') (p : UUID) (d : Date) :
    AlikeAfter (idx.remaining p d) (idx'.remaining p d) := by
  refine ⟨?_, h.touch p d⟩
  simp only [CapacityIndex.remaining, OrdDict.getD, h.base, h.used]

theorem Alike.fitsAll (h : idx.Alike idx') (ps : List UUID) (day : Date) (hours : Int) :
    AlikeAfter (Planner.fitsAll idx ps day hours) (Planner.fitsAll idx' ps day hours) := by
  induction ps generalizing idx idx' with
  | nil => exact ⟨rfl, h⟩
  | cons p ps ih =>
    obtain ⟨hanswer, hidx⟩ := h.remaining p day
    simp only [Planner.fitsAll, hanswer]
    split
    · exact ih hidx
    · exact ⟨rfl, hidx⟩

theorem Alike.searchDay (h : idx.Alike idx') (cal : WorkingCalendar) (ps : List UUID) (hours : Int) (fuel : Nat)
    (day : Date) :
    AlikeAfter (Planner.searchDay cal ps hours fuel day idx) (Planner.searchDay cal ps hours fuel day idx') := by
  induction fuel generalizing day idx idx' with
  | zero => exact ⟨rfl, h⟩
  | succ fuel ih =>
    obtain ⟨hanswer, hidx⟩ := h.fitsAll ps day hours
    simp only [Planner.searchDay, hanswer]
    split
    · split
      · exact ⟨rfl, hidx⟩
      · exact ih hidx (day + 1)
    · exact ih h (day + 1)

theorem Alike.splitLoop (h : idx.Alike idx') (cal : WorkingCalendar) (pid : UUID) (fuel : Nat) (day : Date)
    (hours : Int) : (Planner.splitLoop cal pid fuel day hours idx').1 = (Planner.splitLoop cal pid fuel day hours idx).1 ∧
      AlikeAfter (Planner.splitLoop cal pid fuel day hours idx).2 (Planner.splitLoop cal pid fuel day hours idx').2 := by
  induction fuel generalizing day hours idx idx' with
  | zero => exact ⟨rfl, rfl, h⟩
  | succ fuel ih =>
    obtain ⟨hanswer, hidx⟩ := h.remaining pid day
    simp only [Planner.splitLoop, hanswer]
    split
    · exact ⟨rfl, rfl, h⟩
    · split
      · split
        · obtain ⟨hallocs, hrest, hidx'⟩ := ih hidx (day + 1)
            (hours - min (idx.remaining pid day).1 hours)
          exact ⟨by rw [hallocs], hrest, hidx'⟩
        · exact ih hidx (day + 1) hours
      · exact ih h (day + 1) hours

end Steps

end CapacityIndex

open CapacityIndex

section Placing

variable {task : Task} {earliest : Date} {cal : WorkingCalendar} {idx idx' : CapacityIndex} {limit : Date}

theorem allocateTogether_alike (h : idx.Alike idx') (ps : List UUID) :
    AlikeAfter (allocateTogether ps task earliest cal idx limit) (allocateTogether ps task earliest cal idx' limit) := by
  obtain ⟨hanswer, hidx⟩ := h.searchDay cal ps task.durationHours (limit + 1 - firstWorkingDay cal earliest)
    (firstWorkingDay cal earliest)
  exact ⟨by simp only [allocateTogether, hanswer], hidx⟩

theorem allocate_alike (h : idx.Alike idx') (person : Person) : SameOutcome AlikeAfter
    (allocate task person earliest cal idx limit) (allocate task person earliest cal idx' limit) := by
  unfold allocate
  split
  · obtain ⟨hallocs, hrest, hidx⟩ := h.splitLoop cal person.id (limit + 1 - firstWorkingDay cal earliest)
      (firstWorkingDay cal earliest) task.durationHours
    simp only [allocateSplit, hallocs, hrest]
    cases Placement.spanning _ with
    | error e => exact .error e
    | ok p => exact .ok ⟨rfl, hidx⟩
  · exact .ok (allocateTogether_alike h [person.id])

theorem bestCandidate_alike (h : idx.Alike idx') (cands : List Person) (best : Option (Placement × Person)) :
    SameOutcome AlikeAfter (bestCandidate task earliest cal limit cands best idx)
      (bestCandidate task earliest cal limit cands best idx') := by
  induction cands generalizing best idx idx' with
  | nil => exact .ok ⟨rfl, h⟩
  | cons c cands ih =>
    simp only [bestCandidate]
    rcases (@allocate_alike task earliest cal idx idx' limit h c).or with ⟨e, hr, hr'⟩ | ⟨⟨p, i⟩, ⟨q, j⟩, hr, hr', ha⟩
    · rw [hr, hr']
      exact .error e
    · obtain rfl : q = p := ha.answer
      rw [hr, hr']
      dsimp only
      cases best with
      | none => exact ih ha.idx _
      | some b =>
        dsimp only
        split
        · exact ih ha.idx _
        · exact ih ha.idx _

theorem placeOn_alike (h : idx.Alike idx') (allowed : List Person) :
    SameOutcome (fun r r' => r'.1 = r.1 ∧ r'.2.1 = r.2.1 ∧ r.2.2.Alike r'.2.2)
      (placeOn task earliest allowed cal idx limit) (placeOn task earliest allowed cal idx' limit) := by
  unfold placeOn
  split
  · split
    · exact .error _
    · exact .ok ⟨rfl, rfl, h⟩
  · split
    · rename_i p1 p2 rest _
      obtain ⟨hanswer, hidx⟩ := @allocateTogether_alike task earliest cal idx idx' limit h [p1.id, p2.id]
      exact .ok ⟨hanswer, rfl, hidx⟩
    · rename_i allowed _ _ _
      rcases (@bestCandidate_alike task earliest cal idx idx' limit h allowed none).or with
        ⟨e, hr, hr'⟩ | ⟨⟨best, i⟩, ⟨best', j⟩, hr, hr', ha⟩
      · rw [hr, hr']
        exact .error e
      · obtain rfl : best' = best := ha.answer
        rw [hr, hr']
        cases best' with
        | none => exact .error _
        | some b => exact .ok ⟨rfl, rfl, ha.idx⟩

end Placing

/-- The same tasks are placed, and placed alike. -/
structure PlanState.Alike (st st' : PlanState) : Prop where
  idx : st.idx.Alike st'.idx
  assignments : st'.assignments = st.assignments

/-- The same assignments and end, and the same days overloaded. -/
structure PlanResult.Alike (res res' : PlanResult) : Prop where
  assignments : res'.assignments = res.assignments
  endDate : res'.endDate = res.endDate
  overloads : ∀ p d, (∃ r ∈ res'.overloads, r.ListsOverload p d) ↔ ∃ r ∈ res.overloads, r.ListsOverload p d

/-- A request with its rows of load and of overrides replaced. -/
def PlanRequest.withRows (req : PlanRequest) (existing : List DayAllocation) (overrides : List DayOverride) :
    PlanRequest :=
  { req with existingAllocations := existing, dayOverrides := overrides }

section Runs

variable {cal : WorkingCalendar} {req : PlanRequest} {existing : List DayAllocation} {overrides : List DayOverride}
  {graph : Dag} {st st' : PlanState}

theorem placeTask_alike (h : st.Alike st') (tid : UUID) : SameOutcome PlanState.Alike
    (placeTask cal req graph st tid) (placeTask cal (req.withRows existing overrides) graph st' tid) := by
  have htasks : tasksById (req.withRows existing overrides) = tasksById req := rfl
  have hallowed : ∀ t, allowedPeople (req.withRows existing overrides) t = allowedPeople req t := fun _ => rfl
  have hlimit : horizonLimit (req.withRows existing overrides) = horizonLimit req := rfl
  have hstart : (req.withRows existing overrides).horizonStart = req.horizonStart := rfl
  unfold placeTask
  rw [h.assignments, htasks, hlimit, hstart]
  split
  · exact .ok h
  · split
    · exact .ok h
    · rename_i task _
      dsimp only
      rw [hallowed]
      rcases (@placeOn_alike task (earliestStart task graph st.assignments req.horizonStart cal) cal st.idx st'.idx
        (horizonLimit req) h.idx (allowedPeople req task)).or with ⟨e, hr, hr'⟩ |
          ⟨⟨p, person, i⟩, ⟨p', person', j⟩, hr, hr', hp, hperson, hidx⟩
      · rw [hr, hr']
        exact .error e
      · obtain rfl : p' = p := hp
        obtain rfl : person' = person := hperson
        rw [hr, hr']
        exact .ok ⟨hidx.occupy p'.allocs, rfl⟩

theorem placeAll_alike (h : st.Alike st') (order : List UUID) : SameOutcome PlanState.Alike
    (placeAll cal req graph order st) (placeAll cal (req.withRows existing overrides) graph order st') := by
  induction order generalizing st st' with
  | nil => exact .ok h
  | cons tid order ih =>
    simp only [placeAll]
    rcases (@placeTask_alike cal req existing overrides graph st st' h tid).or with
      ⟨e, hr, hr'⟩ | ⟨st₁, st₁', hr, hr', h₁⟩
    · rw [hr, hr']
      exact .error e
    · rw [hr, hr']
      exact ih h₁

theorem pinTask_alike (h : st.Alike st') (t : Task) : (pinTask st t).Alike (pinTask st' t) := by
  unfold pinTask
  cases t.pinned? with
  | none => exact h
  | some a => exact ⟨h.idx.occupy a.allocations, by rw [h.assignments]⟩

theorem foldl_pinTask_alike (h : st.Alike st') (ts : List Task) : (ts.foldl pinTask st).Alike (ts.foldl pinTask st') := by
  induction ts generalizing st st' with
  | nil => exact h
  | cons t ts ih => exact ih (pinTask_alike h t)

theorem planResult_alike (h : st.Alike st') (order : List UUID) :
    (planResult req order st).Alike (planResult (req.withRows existing overrides) order st') := by
  refine ⟨by simp only [planResult, h.assignments], by simp only [planResult, h.assignments], fun p d => ?_⟩
  rw [overloads_planResult, overloads_planResult, exists_overloadFlag, exists_overloadFlag, h.idx.keys, h.idx.base,
    h.idx.usedOn]

end Runs

section Rows

variable {req : PlanRequest} {existing : List DayAllocation} {overrides : List DayOverride}

theorem get?_addHours_perm {as bs : List DayAllocation} (h : as.Perm bs) (k : UUID × Date) :
    (as.foldl addHours OrdDict.empty).get? k = (bs.foldl addHours OrdDict.empty).get? k := by
  -- a day is on the books if a row books it, with the sum of its rows
  have hget : ∀ l : List DayAllocation, (l.foldl addHours OrdDict.empty).get? k =
      if ∃ a ∈ l, (a.personId, a.day) = k then some (hoursOn l k.1 k.2) else none := by
    intro l
    have hkeys := @mem_keys_foldl_addHours l OrdDict.empty k
    have hsum := getD_foldl_addHours l OrdDict.empty k.1 k.2
    simp only [OrdDict.keys_empty, List.not_mem_nil, or_false] at hkeys
    rw [OrdDict.getD, OrdDict.getD, OrdDict.get?_empty, Option.getD_none, Int.zero_add] at hsum
    split
    · rename_i hbooked
      obtain ⟨v, hv⟩ := Option.isSome_iff_exists.mp (OrdDict.mem_keys.mp (hkeys.mpr hbooked))
      rw [hv, Option.getD_some] at hsum
      rw [hv, hsum]
    · rename_i hfree
      exact OrdDict.get?_eq_none_iff.mpr (mt hkeys.mp hfree)
  rw [hget, hget, hoursOn_perm h]
  simp only [h.mem_iff]

theorem init_alike (cal : WorkingCalendar) (hex : existing.Perm req.existingAllocations)
    (hov : overrides.Perm req.dayOverrides) (hone : (req.dayOverrides.map fun o => (o.personId, o.day)).Nodup) :
    (init req.people cal req.dayOverrides req.existingAllocations).Alike (init req.people cal overrides existing) := by
  refine ⟨?_, get?_addHours_perm hex⟩
  have hrows : ∀ k, (OrdDict.ofList (overrides.map fun o => ((o.personId, o.day), o.capacityH))).get? k =
      (OrdDict.ofList (req.dayOverrides.map fun o => ((o.personId, o.day), o.capacityH))).get? k := by
    refine OrdDict.get?_ofList_perm ?_ (hov.map _)
    rw [List.map_map]
    exact hone
  funext p d
  simp only [init, capacityOn, hrows]

end Rows

/-- With one override for a person's day, the order of the rows of the load and
of the overrides changes neither the plan nor the error. -/
theorem plan_row_order (s : GreedySolver) (req : PlanRequest) (existing : List DayAllocation)
    (overrides : List DayOverride) (hex : existing.Perm req.existingAllocations) (hov : overrides.Perm req.dayOverrides)
    (hone : (req.dayOverrides.map fun o => (o.personId, o.day)).Nodup) :
    SameOutcome PlanResult.Alike (s.plan req)
      (s.plan { req with existingAllocations := existing, dayOverrides := overrides }) := by
  have hinit : PlanState.Alike ⟨.init req.people s.calendar req.dayOverrides req.existingAllocations, OrdDict.empty⟩
      ⟨.init req.people s.calendar overrides existing, OrdDict.empty⟩ :=
    ⟨init_alike s.calendar hex hov hone, rfl⟩
  have hstart : (startState s.calendar req).Alike (startState s.calendar (req.withRows existing overrides)) :=
    foldl_pinTask_alike hinit req.tasks
  change SameOutcome _ _ (s.plan (req.withRows existing overrides))
  unfold GreedySolver.plan
  have hempty : (!(req.withRows existing overrides).tasks.isEmpty && (req.withRows existing overrides).people.isEmpty) =
      (!req.tasks.isEmpty && req.people.isEmpty) := rfl
  have hdag : buildDag (req.withRows existing overrides).tasks (req.withRows existing overrides).dependencies =
      buildDag req.tasks req.dependencies := rfl
  rw [hempty, hdag]
  split
  · exact .error _
  · dsimp only
    split
    · exact .error _
    · rename_i order _
      rcases (@placeAll_alike s.calendar req existing overrides (buildDag req.tasks req.dependencies) _ _ hstart
        order).or with ⟨e, hr, hr'⟩ | ⟨st, st', hr, hr', h⟩
      · rw [hr, hr']
        exact .error e
      · rw [hr, hr']
        exact .ok (planResult_alike h order)

/-- Two rows for Anna's Monday and one override each. -/
def loadedRequest : PlanRequest where
  people := [⟨1, "Анна", 8⟩, ⟨2, "Борис", 8⟩]
  tasks := [{ id := 7, name := "Черновик", durationHours := 10, allowedPersonIds := [1, 2], isSplittable := true }]
  dependencies := []
  horizonStart := Date.ofYmd 2026 6 1
  dayOverrides := [⟨1, Date.ofYmd 2026 6 2, 0⟩, ⟨2, Date.ofYmd 2026 6 2, 4⟩]
  existingAllocations := [⟨1, Date.ofYmd 2026 6 1, 3⟩, ⟨2, Date.ofYmd 2026 6 1, 8⟩, ⟨1, Date.ofYmd 2026 6 1, 2⟩]

theorem plan_row_order_loaded : SameOutcome PlanResult.Alike (GreedySolver.onWeekdays.plan loadedRequest)
    (GreedySolver.onWeekdays.plan { loadedRequest with
      existingAllocations := loadedRequest.existingAllocations.reverse
      dayOverrides := loadedRequest.dayOverrides.reverse }) :=
  plan_row_order .onWeekdays loadedRequest _ _ (List.reverse_perm _) (List.reverse_perm _) (by decide)

end Planner
