import Planner.Anonymity
import Planner.ExecutorBinding
import Planner.OverloadFlags
import Planner.PlanDiff
import Planner.PlanErrors

/-! How far a what-if reaches. Other capacities, overrides or load of some people
move only tasks that may go to them, that wait for such a task, or that share
somebody with one. -/

namespace Planner

/-- Who may be given a task. -/
def PlanRequest.MayTake (req : PlanRequest) (t : Task) (p : UUID) : Prop := ∃ c ∈ allowedPeople req t, c.id = p

/-- Neither held in place nor a window. -/
structure PlanRequest.TakesHours (req : PlanRequest) (t : Task) : Prop where
  mem : t ∈ req.tasks
  movable : t.pinned? = none
  hours : t.durationIsWindow = false

/-- The tasks that the hours of the people `who` can bear upon. -/
inductive PlanRequest.Stirred (req : PlanRequest) (who : UUID → Prop) : Task → Prop
  | own {t : Task} {p : UUID} (ht : req.TakesHours t) (hp : req.MayTake t p) (hwho : who p) : Stirred req who t
  | waiting {t u : Task} (ht : t ∈ req.tasks) (hmovable : t.pinned? = none) (hu : Stirred req who u)
      (hreq : req.Requires u.id t.id) : Stirred req who t
  | sharing {t u : Task} {p : UUID} (ht : req.TakesHours t) (hp : req.MayTake t p) (hu : Stirred req who u)
      (hours : req.TakesHours u) (hq : req.MayTake u p) : Stirred req who t

/-- The people `who`, and those who may be given the hours of a stirred task. -/
def PlanRequest.StirredPerson (req : PlanRequest) (who : UUID → Prop) (p : UUID) : Prop :=
  who p ∨ ∃ u, req.TakesHours u ∧ req.Stirred who u ∧ req.MayTake u p

/-- What the rows of the overrides come down to. -/
def PlanRequest.overrideTable (req : PlanRequest) : OrdDict (UUID × Date) Int :=
  OrdDict.ofList (req.dayOverrides.map fun o => ((o.personId, o.day), o.capacityH))

/-- The same work for the same people. Capacity, overrides and load may be other
ones for the people `who`, and the deadline for everybody. -/
structure PlanRequest.DiffersFor (who : UUID → Prop) (req req' : PlanRequest) : Prop where
  tasks : req'.tasks = req.tasks
  dependencies : req'.dependencies = req.dependencies
  horizonStart : req'.horizonStart = req.horizonStart
  people : List.Forall₂ (fun q q' => q'.id = q.id ∧ (¬ who q.id → q'.capacityH = q.capacityH)) req.people req'.people
  overrides : ∀ p d, ¬ who p → req'.overrideTable.get? (p, d) = req.overrideTable.get? (p, d)
  load : ∀ p, ¬ who p →
    req'.existingAllocations.filter (fun a => a.personId = p) = req.existingAllocations.filter fun a => a.personId = p

namespace CapacityIndex

/-- The books of the people `calm` are the same. -/
structure AlikeFor (calm : UUID → Prop) (idx idx' : CapacityIndex) : Prop where
  base : ∀ p d, calm p → idx'.baseCapacity p d = idx.baseCapacity p d
  used : ∀ p d, calm p → idx'.used.get? (p, d) = idx.used.get? (p, d)

namespace AlikeFor

variable {calm : UUID → Prop} {idx idx' idx'' : CapacityIndex}

theorem refl (idx : CapacityIndex) : AlikeFor calm idx idx := ⟨fun _ _ _ => rfl, fun _ _ _ => rfl⟩

theorem symm (h : AlikeFor calm idx idx') : AlikeFor calm idx' idx :=
  ⟨fun p d hp => (h.base p d hp).symm, fun p d hp => (h.used p d hp).symm⟩

theorem trans (h : AlikeFor calm idx idx') (h' : AlikeFor calm idx' idx'') : AlikeFor calm idx idx'' :=
  ⟨fun p d hp => (h'.base p d hp).trans (h.base p d hp), fun p d hp => (h'.used p d hp).trans (h.used p d hp)⟩

theorem free (h : AlikeFor calm idx idx') {p : UUID} (hp : calm p) (d : Date) : idx'.free p d = idx.free p d := by
  simp only [CapacityIndex.free, usedOn, OrdDict.getD, h.base p d hp, h.used p d hp]

theorem used_touch (idx : CapacityIndex) (p : UUID) (d : Date) (k : UUID × Date) (hk : k.1 ≠ p) :
    (idx.touch p d).used.get? k = idx.used.get? k := by
  unfold CapacityIndex.touch
  split
  · rfl
  · have hne : k ≠ (p, d) := fun he => hk (congrArg Prod.fst he)
    exact OrdDict.get?_insert_of_ne _ _ hne

theorem touch (h : AlikeFor calm idx idx') (p : UUID) (d : Date) : AlikeFor calm (idx.touch p d) (idx'.touch p d) := by
  have hbase : ∀ i : CapacityIndex, (i.touch p d).baseCapacity = i.baseCapacity :=
    fun i => (sameLoad_touch i p d).baseCapacity
  refine ⟨fun q e hq => ?_, fun q e hq => ?_⟩
  · rw [hbase, hbase, h.base q e hq]
  · by_cases hp : q = p
    · subst hp
      have hcontains : idx'.used.contains (q, d) = idx.used.contains (q, d) := by
        simp only [OrdDict.contains, h.used q d hq]
      unfold CapacityIndex.touch
      rw [hcontains]
      split
      · exact h.used q e hq
      · simp only [OrdDict.get?_insert, h.used q e hq]
    · rw [used_touch idx p d (q, e) hp, used_touch idx' p d (q, e) hp, h.used q e hq]

/-- Looking up somebody who is not calm. -/
theorem touch_own (idx : CapacityIndex) {p : UUID} (hp : ¬ calm p) (d : Date) : AlikeFor calm idx (idx.touch p d) := by
  refine ⟨fun q e _ => by rw [(sameLoad_touch idx p d).baseCapacity], fun q e hq => ?_⟩
  exact used_touch idx p d (q, e) fun he => hp (he ▸ hq)

/-- Only the rows of a person decide on the hours of the person. -/
theorem get?_rows {used used' : OrdDict (UUID × Date) Int} {p : UUID} {d : Date}
    (h : ∀ e, used'.get? (p, e) = used.get? (p, e)) (as as' : List DayAllocation)
    (hrows : as'.filter (fun a => a.personId = p) = as.filter fun a => a.personId = p) :
    (as'.foldl addHours used').get? (p, d) = (as.foldl addHours used).get? (p, d) := by
  have hown : ∀ (l : List DayAllocation) (u v : OrdDict (UUID × Date) Int), (∀ e, v.get? (p, e) = u.get? (p, e)) →
      ∀ e, (l.foldl addHours v).get? (p, e) = ((l.filter fun a => a.personId = p).foldl addHours u).get? (p, e) := by
    intro l
    induction l with
    | nil => exact fun u v huv => huv
    | cons a l ih =>
      intro u v huv
      by_cases ha : a.personId = p
      · rw [List.filter_cons, if_pos (decide_eq_true ha), List.foldl_cons, List.foldl_cons]
        refine ih _ _ fun e => ?_
        simp only [addHours, OrdDict.get?_insert, OrdDict.getD, ha, huv]
      · rw [List.filter_cons, if_neg (by simpa using ha), List.foldl_cons]
        refine ih _ _ fun e => ?_
        have hne : (p, e) ≠ (a.personId, a.day) := fun he => ha (congrArg Prod.fst he).symm
        rw [addHours, OrdDict.get?_insert_of_ne _ _ hne, huv]
  rw [hown as' used used' h, hrows, ← hown as used used fun _ => rfl]

theorem occupy (h : AlikeFor calm idx idx') (as : List DayAllocation) :
    AlikeFor calm (idx.occupy as) (idx'.occupy as) :=
  ⟨h.base, fun p _ hp => get?_rows (fun e => h.used p e hp) as as rfl⟩

/-- Booking people who are not calm. -/
theorem occupy_own (idx : CapacityIndex) {as : List DayAllocation} (h : ∀ a ∈ as, ¬ calm a.personId) :
    AlikeFor calm idx (idx.occupy as) := by
  refine ⟨fun _ _ _ => rfl, fun p d hp => ?_⟩
  have hnone : as.filter (fun a => a.personId = p) = [] := by
    refine List.filter_eq_nil_iff.mpr fun a ha he => h a ha ?_
    rw [of_decide_eq_true he]
    exact hp
  exact get?_rows (fun _ => rfl) [] as hnone

end AlikeFor

end CapacityIndex

open CapacityIndex

section Request

variable {who : UUID → Prop} {req req' : PlanRequest}

theorem PlanRequest.Stirred.mem {t : Task} (h : req.Stirred who t) : t ∈ req.tasks := by
  cases h with
  | own ht => exact ht.mem
  | waiting ht => exact ht
  | sharing ht => exact ht.mem

/-- Only the rows of a person count for the person. -/
theorem PlanRequest.overrideTable_congr {p : UUID} (hrows :
    req'.dayOverrides.filter (fun o => o.personId = p) = req.dayOverrides.filter fun o => o.personId = p) (d : Date) :
    req'.overrideTable.get? (p, d) = req.overrideTable.get? (p, d) := by
  have hown : ∀ r : PlanRequest, r.overrideTable.get? (p, d) = (OrdDict.ofList ((r.dayOverrides.filter
      fun o => o.personId = p).map fun o => ((o.personId, o.day), o.capacityH))).get? (p, d) := by
    intro r
    rw [overrideTable, ← OrdDict.get?_ofList_filter _ (fun k => decide (k.1 = p)) (by simp), List.filter_map]
    rfl
  rw [hown, hown, hrows]

/-- The same candidates in the same order. -/
theorem PlanRequest.DiffersFor.allowed (h : req.DiffersFor who req') (t : Task) :
    List.Forall₂ sameIds.Same (allowedPeople req t) (allowedPeople req' t) := by
  have hids : List.Forall₂ sameIds.Same req.people req'.people := h.people.imp fun _ _ hq => hq.1
  have hrows : List.Forall₂ (fun e e' => e'.1 = e.1 ∧ sameIds.Same e.2 e'.2)
      (req.people.map fun p => (p.id, p)) (req'.people.map fun p => (p.id, p)) := by
    rw [List.forall₂_map_left_iff, List.forall₂_map_right_iff]
    exact hids.imp fun _ _ hq => ⟨hq, hq⟩
  have hbound : ∀ pids : List UUID, List.Forall₂ sameIds.Same
      (pids.filterMap fun pid => (peopleById req).get? pid) (pids.filterMap fun pid => (peopleById req').get? pid) := by
    intro pids
    induction pids with
    | nil => exact .nil
    | cons pid pids ih =>
      have hget : Option.Rel sameIds.Same ((peopleById req).get? pid) ((peopleById req').get? pid) :=
        @OrdDict.rel_get?_ofList _ _ _ _ (fun _ => sameIds.Same) _ _ hrows pid
      rw [List.filterMap_cons, List.filterMap_cons]
      generalize (peopleById req).get? pid = q at hget
      generalize (peopleById req').get? pid = q' at hget
      cases hget with
      | none => exact ih
      | some hq => exact .cons hq ih
  have htask := hbound t.allowedPersonIds
  unfold allowedPeople
  generalize t.allowedPersonIds.filterMap (fun pid => (peopleById req).get? pid) = cs at htask
  generalize t.allowedPersonIds.filterMap (fun pid => (peopleById req').get? pid) = cs' at htask
  cases htask with
  | nil => exact hids
  | cons hc hcs => exact .cons hc hcs

theorem PlanRequest.DiffersFor.ids (h : req.DiffersFor who req') (t : Task) :
    (allowedPeople req' t).map Person.id = (allowedPeople req t).map Person.id := by
  have hsame := h.allowed t
  generalize allowedPeople req t = cs at hsame
  generalize allowedPeople req' t = cs' at hsame
  induction hsame with
  | nil => rfl
  | cons hc _ ih => exact congrArg₂ List.cons hc ih

theorem PlanRequest.DiffersFor.mayTake (h : req.DiffersFor who req') {t : Task} {p : UUID} :
    req'.MayTake t p ↔ req.MayTake t p := by
  have hmem : ∀ r : PlanRequest, r.MayTake t p ↔ p ∈ (allowedPeople r t).map Person.id :=
    fun r => List.mem_map.symm
  rw [hmem, hmem, h.ids]

/-- The books before anything is placed. -/
theorem PlanRequest.DiffersFor.books (h : req.DiffersFor who req') (cal : WorkingCalendar) :
    AlikeFor (fun p => ¬ who p) (req.books cal) (req'.books cal) := by
  refine ⟨fun p d hp => ?_, fun p d hp => AlikeFor.get?_rows (fun _ => rfl) _ _ (h.load p hp)⟩
  have hcap : Option.Rel (fun c c' => ¬ who p → c' = c)
      ((OrdDict.ofList (req.people.map fun q => (q.id, q.capacityH))).get? p)
      ((OrdDict.ofList (req'.people.map fun q => (q.id, q.capacityH))).get? p) := by
    refine @OrdDict.rel_get?_ofList _ _ _ _ (fun k c c' => ¬ who k → c' = c) _ _ ?_ p
    rw [List.forall₂_map_left_iff, List.forall₂_map_right_iff]
    exact h.people
  have hrow := h.overrides p d hp
  change capacityOn _ cal _ p d = capacityOn _ cal _ p d
  unfold capacityOn
  dsimp only
  rw [PlanRequest.overrideTable, PlanRequest.overrideTable] at hrow
  rw [hrow, OrdDict.getD, OrdDict.getD]
  generalize (OrdDict.ofList (req.people.map fun q => (q.id, q.capacityH))).get? p = c at hcap
  generalize (OrdDict.ofList (req'.people.map fun q => (q.id, q.capacityH))).get? p = c' at hcap
  cases hcap with
  | none => rfl
  | some hc => rw [hc hp]

end Request

section Placing

variable {calm : UUID → Prop} {task : Task} {earliest limit : Date} {allowed : List Person} {cal : WorkingCalendar}
  {idx i : CapacityIndex} {p : Placement} {person : Person}

/-- Looking for a place and booking it concern the candidates only. -/
theorem placeOn_own (hplace : placeOn task earliest allowed cal idx limit = .ok (p, person, i))
    (hown : task.durationIsWindow = false → ∀ c ∈ allowed, ¬ calm c.id) : AlikeFor calm idx (i.occupy p.allocs) := by
  by_cases hw : task.durationIsWindow = true
  · cases allowed with
    | nil =>
      rw [placeOn_window_nil hw] at hplace
      cases hplace
    | cons c cs =>
      rw [placeOn_window hw] at hplace
      obtain ⟨rfl, rfl, rfl⟩ : _ ∧ _ ∧ _ := by simpa using hplace
      exact .refl idx
  · have hnone := hown (Bool.eq_false_iff.mpr hw)
    have hsearch : sameIds.SameSearch cal earliest (fun q => ¬ calm q) fun j j' => j' = j ∧ AlikeFor calm idx j := by
      refine ⟨fun h _ _ _ => by rw [h.1]; rfl, fun {j j' q} d h hq => ?_⟩
      obtain ⟨rfl, hj⟩ := h
      exact ⟨rfl, hj.trans (.touch_own j' hq d)⟩
    have hsame : List.Forall₂ sameIds.Same allowed allowed := List.forall₂_same.mpr fun _ _ => rfl
    have hboth := hsearch.placeOn limit ⟨rfl, .refl idx⟩ hsame hnone le_rfl task
    have hi : AlikeFor calm idx i := by
      rcases hboth.or with ⟨e, hr, -⟩ | ⟨r, r', hr, -, -, -, -, h⟩
      · rw [hplace] at hr
        cases hr
      · rw [hplace] at hr
        obtain rfl := Except.ok.inj hr
        exact h
    refine hi.trans (.occupy_own i fun a ha hcalm => ?_)
    obtain ⟨c, hc, he⟩ : ∃ c ∈ allowed, c.id = a.personId := by
      cases (placeOn_ok hplace).1 with
      | window hw' => exact absurd hw' hw
      | pair _ _ hpair =>
        obtain ⟨q, hq, rfl⟩ := List.mem_map.mp ha
        rcases List.mem_cons.mp hq with rfl | hq
        · exact ⟨_, hpair ▸ List.mem_cons_self, rfl⟩
        · exact ⟨_, hpair ▸ List.mem_cons_of_mem _ List.mem_cons_self, (List.mem_singleton.mp hq).symm⟩
      | single _ _ hwin =>
        obtain ⟨pre, post, hsplit, hp, -⟩ := hwin
        exact ⟨person, hsplit ▸ List.mem_append_right _ List.mem_cons_self, (placementOf_person hp a ha).symm⟩
    exact hnone c hc (he ▸ hcalm)

end Placing

section Runs

variable {cal : WorkingCalendar} {req : PlanRequest} {graph : Dag} {st st₁ : PlanState} {tid : UUID}

theorem placeTask_idle (h : tid ∈ st.assignments.keys ∨ (tasksById req).get? tid = none) :
    placeTask cal req graph st tid = .ok st := by
  unfold placeTask
  rcases h with h | h
  · rw [if_pos (OrdDict.contains_iff.mpr h)]
  · rw [h]
    split
    · rfl
    · rfl

theorem placeTask_turn (hnew : tid ∉ st.assignments.keys) {task : Task} (htask : (tasksById req).get? tid = some task)
    (h : placeTask cal req graph st tid = .ok st₁) : ∃ p person i,
      placeOn task (earliestStart task graph st.assignments req.horizonStart cal) (allowedPeople req task) cal st.idx
        (horizonLimit req) = .ok (p, person, i) ∧
      st₁ = ⟨i.occupy p.allocs, st.assignments.insert tid (p.toAssignment tid person)⟩ := by
  unfold placeTask at h
  rw [if_neg (mt OrdDict.contains_iff.mp hnew), htask] at h
  dsimp only at h
  split at h
  · cases h
  · rename_i p person i hplace
    exact ⟨p, person, i, hplace, (Except.ok.inj h).symm⟩

/-- How far the two runs have got: the tasks that are not stirred are placed
alike, and the books of the calm people are the same. -/
structure PlanRequest.Parted (req : PlanRequest) (who : UUID → Prop) (st st' : PlanState) : Prop where
  idx : AlikeFor (fun p => ¬ req.StirredPerson who p) st.idx st'.idx
  keys : ∀ tid, tid ∈ st'.assignments.keys ↔ tid ∈ st.assignments.keys
  same : ∀ tid, (∀ t, req.Stirred who t → t.id ≠ tid) → st'.assignments.get? tid = st.assignments.get? tid
  held : ∀ t ∈ req.tasks, t.pinned? ≠ none → t.id ∈ st.assignments.keys

variable {who : UUID → Prop} {req' : PlanRequest} {st' st₁' : PlanState}

theorem startState_parted (hids : (req.tasks.map Task.id).Nodup) (h : req.DiffersFor who req') :
    req.Parted who (startState cal req) (startState cal req') := by
  have hbooks : AlikeFor (fun p => ¬ req.StirredPerson who p) (req.books cal) (req'.books cal) := by
    have hwho := h.books cal
    exact ⟨fun p d hp => hwho.base p d fun hh => hp (Or.inl hh), fun p d hp => hwho.used p d fun hh => hp (Or.inl hh)⟩
  have hpins : ∀ (ts : List Task) (s s' : PlanState), AlikeFor (fun p => ¬ req.StirredPerson who p) s.idx s'.idx →
      s'.assignments = s.assignments → AlikeFor (fun p => ¬ req.StirredPerson who p) (ts.foldl pinTask s).idx
        (ts.foldl pinTask s').idx ∧ (ts.foldl pinTask s').assignments = (ts.foldl pinTask s).assignments := by
    intro ts
    induction ts with
    | nil => exact fun s s' hi ha => ⟨hi, ha⟩
    | cons t ts ih =>
      intro s s' hi ha
      rw [List.foldl_cons, List.foldl_cons]
      refine ih _ _ ?_ ?_
      · unfold pinTask
        cases t.pinned? with
        | none => exact hi
        | some a => exact hi.occupy a.allocations
      · unfold pinTask
        cases t.pinned? with
        | none => exact ha
        | some a => exact congrArg (fun d => OrdDict.insert d t.id a) ha
  obtain ⟨hidx, hsame⟩ := hpins req.tasks ⟨req.books cal, .empty⟩ ⟨req'.books cal, .empty⟩ hbooks rfl
  have hleft : startState cal req = req.tasks.foldl pinTask ⟨req.books cal, .empty⟩ := rfl
  have hright : startState cal req' = req.tasks.foldl pinTask ⟨req'.books cal, .empty⟩ := by
    rw [startState, h.tasks]
    rfl
  rw [← hleft, ← hright] at hidx hsame
  refine ⟨hidx, fun tid => by rw [hsame], fun tid _ => by rw [hsame], fun t ht hp => ?_⟩
  obtain ⟨a, ha⟩ := Option.ne_none_iff_exists'.mp hp
  exact OrdDict.mem_keys.mpr (by rw [startState_pinned cal (nodup_pinned_ids hids) ht ha]; rfl)

/-- What a task waits for is placed alike if the task is not stirred. -/
theorem earliestStart_parted (hparted : req.Parted who st st') {task : Task} (htask : task ∈ req.tasks)
    (hmovable : task.pinned? = none) (hcalm : ¬ req.Stirred who task) (start : Date) :
    earliestStart task (buildDag req.tasks req.dependencies) st'.assignments start cal =
      earliestStart task (buildDag req.tasks req.dependencies) st.assignments start cal := by
  have hdeps : ∀ dep ∈ (buildDag req.tasks req.dependencies).predecessors task.id,
      st'.assignments.get? dep = st.assignments.get? dep := by
    intro dep hdep
    refine hparted.same dep fun u hu he => hcalm (.waiting htask hmovable hu ?_)
    rw [he]
    exact edge_iff_requires.mp (EdgeGraph.mem_predecessors.mp hdep)
  unfold earliestStart
  refine List.foldl_ext _ _ _ fun est dep hdep => ?_
  rw [raiseStart, raiseStart, hdeps dep hdep]

/-- A turn of both runs. -/
theorem PlanRequest.Parted.turn (h : req.DiffersFor who req') (hparted : req.Parted who st st')
    (hstep : placeTask cal req (buildDag req.tasks req.dependencies) st tid = .ok st₁)
    (hstep' : placeTask cal req' (buildDag req.tasks req.dependencies) st' tid = .ok st₁') :
    req.Parted who st₁ st₁' := by
  have htasks : tasksById req' = tasksById req := by rw [tasksById, tasksById, h.tasks]
  have hlimit : horizonLimit req' = horizonLimit req := by rw [horizonLimit, horizonLimit, h.horizonStart]
  by_cases hidle : tid ∈ st.assignments.keys ∨ (tasksById req).get? tid = none
  · rw [placeTask_idle hidle] at hstep
    rw [placeTask_idle (by rwa [htasks, hparted.keys])] at hstep'
    rwa [← Except.ok.inj hstep, ← Except.ok.inj hstep']
  obtain ⟨hnew, hsome⟩ := not_or.mp hidle
  obtain ⟨task, htask⟩ := Option.ne_none_iff_exists'.mp hsome
  obtain ⟨hmem, hid⟩ := mem_of_tasksById htask
  have hmovable : task.pinned? = none := by
    by_contra hp
    exact hnew (hid ▸ hparted.held task hmem hp)
  obtain ⟨p, person, i, hplace, rfl⟩ := placeTask_turn hnew htask hstep
  obtain ⟨p', person', i', hplace', rfl⟩ := placeTask_turn (mt (hparted.keys tid).mp hnew) (htasks ▸ htask) hstep'
  have hkeys : ∀ k, k ∈ (st'.assignments.insert tid (p'.toAssignment tid person')).keys ↔
      k ∈ (st.assignments.insert tid (p.toAssignment tid person)).keys := by
    intro k
    rw [OrdDict.mem_keys_insert, OrdDict.mem_keys_insert, hparted.keys]
  have hheld : ∀ t ∈ req.tasks, t.pinned? ≠ none → t.id ∈ (st.assignments.insert tid (p.toAssignment tid person)).keys :=
    fun t ht hp => OrdDict.mem_keys_insert.mpr (Or.inr (hparted.held t ht hp))
  by_cases hstirred : req.Stirred who task
  · -- the two places may differ, and so do the books of the candidates
    have hown : task.durationIsWindow = false → ∀ q, req.MayTake task q → ¬ ¬ req.StirredPerson who q :=
      fun hw q hq hcalm => hcalm (Or.inr ⟨task, ⟨hmem, hmovable, hw⟩, hstirred, hq⟩)
    have hleft : AlikeFor (fun q => ¬ req.StirredPerson who q) st.idx (i.occupy p.allocs) :=
      placeOn_own hplace fun hw c hc => hown hw c.id ⟨c, hc, rfl⟩
    have hright : AlikeFor (fun q => ¬ req.StirredPerson who q) st'.idx (i'.occupy p'.allocs) :=
      placeOn_own hplace' fun hw c hc => hown hw c.id (h.mayTake.mp ⟨c, hc, rfl⟩)
    refine ⟨hleft.symm.trans (hparted.idx.trans hright), hkeys, fun k hk => ?_, hheld⟩
    have hne : k ≠ tid := fun he => hk task hstirred (hid.trans he.symm)
    rw [OrdDict.get?_insert_of_ne _ _ hne, OrdDict.get?_insert_of_ne _ _ hne, hparted.same k hk]
  · rw [hlimit, h.horizonStart, earliestStart_parted hparted hmem hmovable hstirred] at hplace'
    have halike : p'.toAssignment tid person' = p.toAssignment tid person ∧
        AlikeFor (fun p => ¬ req.StirredPerson who p) (i.occupy p.allocs) (i'.occupy p'.allocs) := by
      have hallowed := h.allowed task
      by_cases hw : task.durationIsWindow = true
      · -- nobody's hours are looked at
        generalize allowedPeople req task = cs at hallowed hplace
        generalize allowedPeople req' task = cs' at hallowed hplace'
        cases hallowed with
        | nil =>
          rw [placeOn_window_nil hw] at hplace
          cases hplace
        | cons hc _ =>
          rw [placeOn_window hw] at hplace hplace'
          obtain ⟨rfl, rfl, rfl⟩ : _ ∧ _ ∧ _ := by simpa using hplace
          obtain ⟨rfl, rfl, rfl⟩ : _ ∧ _ ∧ _ := by simpa using hplace'
          refine ⟨?_, hparted.idx⟩
          rw [Placement.toAssignment, Placement.toAssignment, show _ = _ from hc]
          rfl
      · have hhours : req.TakesHours task := ⟨hmem, hmovable, Bool.eq_false_iff.mpr hw⟩
        have hcalm : ∀ c ∈ allowedPeople req task, ¬ req.StirredPerson who c.id := by
          rintro c hc (hwho | ⟨u, hu, hs, hq⟩)
          · exact hstirred (.own hhours ⟨c, hc, rfl⟩ hwho)
          · exact hstirred (.sharing hhours ⟨c, hc, rfl⟩ hs hu hq)
        have hsearch : sameIds.SameSearch cal req.horizonStart (fun p => ¬ req.StirredPerson who p)
            (AlikeFor fun p => ¬ req.StirredPerson who p) :=
          ⟨fun hi hp _ _ => hi.free hp _, fun d hi _ => hi.touch _ d⟩
        have hearliest : req.horizonStart ≤
            earliestStart task (buildDag req.tasks req.dependencies) st.assignments req.horizonStart cal :=
          horizonStart_le_earliestStart task req.horizonStart
        have hboth := hsearch.placeOn (horizonLimit req) hparted.idx hallowed hcalm hearliest task
        rw [task_sameIds, id] at hboth
        rcases hboth.or with ⟨e, hr, -⟩ | ⟨r, r', hr, hr', hp, hperson, hi⟩
        · rw [hplace] at hr
          cases hr
        · rw [hplace] at hr
          rw [hplace'] at hr'
          obtain rfl := Except.ok.inj hr
          obtain rfl := Except.ok.inj hr'
          have hp' : p' = p.renamed sameIds := hp
          have hallocs : p'.allocs = p.allocs := by
            rw [hp']
            exact List.map_id _
          refine ⟨?_, hallocs ▸ hi.occupy p.allocs⟩
          rw [Placement.toAssignment, Placement.toAssignment, hallocs, show person'.id = person.id from hperson, hp']
          rfl
    refine ⟨halike.2, hkeys, fun k hk => ?_, hheld⟩
    rw [OrdDict.get?_insert, OrdDict.get?_insert, halike.1, hparted.same k hk]

theorem PlanRequest.Parted.run (h : req.DiffersFor who req') {order : List UUID} (hparted : req.Parted who st st')
    (hall : placeAll cal req (buildDag req.tasks req.dependencies) order st = .ok st₁)
    (hall' : placeAll cal req' (buildDag req.tasks req.dependencies) order st' = .ok st₁') :
    req.Parted who st₁ st₁' := by
  induction order generalizing st st' with
  | nil => rwa [← Except.ok.inj hall, ← Except.ok.inj hall']
  | cons tid order ih =>
    simp only [placeAll] at hall hall'
    split at hall
    · cases hall
    · rename_i mid hstep
      split at hall'
      · cases hall'
      · rename_i mid' hstep'
        exact ih (hparted.turn h hstep hstep') hall hall'

end Runs

section Result

variable {s : GreedySolver} {who : UUID → Prop} {req req' : PlanRequest} {res : PlanResult}

theorem mem_overloadFlags_alike {calm : UUID → Prop} {idx idx' : CapacityIndex} (h : AlikeFor calm idx idx')
    {r : RiskFlag} (hr : r ∈ overloadFlags idx') {p : UUID} {d : Date} (hlists : r.ListsOverload p d) (hp : calm p) :
    r ∈ overloadFlags idx := by
  obtain ⟨⟨q, e, u, b⟩, hmem, rfl⟩ := List.mem_map.mp hr
  obtain rfl : q = p := Option.some.inj hlists.2.1
  obtain ⟨hkey, hused, hbase, hover⟩ := mem_overloads.mp hmem
  have hsame : (q, e, u, b) ∈ idx.overloads := by
    refine mem_overloads.mpr ⟨?_, ?_, ?_, hover⟩
    · rw [OrdDict.mem_keys, ← h.used q e hp]
      exact OrdDict.mem_keys.mp hkey
    · rw [hused, usedOn, usedOn, OrdDict.getD, OrdDict.getD, h.used q e hp]
    · rw [hbase, h.base q e hp]
  exact List.mem_map.mpr ⟨_, hsame, rfl⟩

/-- Whether there is a plan does not depend on anybody's hours. -/
theorem PlanRequest.DiffersFor.plan_isOk (h : req.DiffersFor who req') (hids : (req.tasks.map Task.id).Nodup)
    (hplan : s.plan req = .ok res) : ∃ res', s.plan req' = .ok res' := by
  have hstaffed : ¬ req.Unstaffed := by
    intro hu
    rw [plan_unstaffed hu] at hplan
    cases hplan
  have hacyclic : ¬ req.Cyclic := by
    intro hc
    rw [plan_cyclic hstaffed hc] at hplan
    cases hplan
  have hsplits := (Planner.plan_isOk hids hstaffed hacyclic).mp ⟨res, hplan⟩
  have hstaffed' : ¬ req'.Unstaffed := by
    rintro ⟨htasks, hpeople⟩
    have hnone := h.people
    rw [hpeople, List.forall₂_nil_right_iff] at hnone
    exact hstaffed ⟨h.tasks ▸ htasks, hnone⟩
  have hacyclic' : ¬ req'.Cyclic := by
    have hrequires : req'.Requires = req.Requires := by
      funext u v
      rw [PlanRequest.Requires, PlanRequest.Requires, h.dependencies]
    rwa [PlanRequest.Cyclic, hrequires]
  refine (Planner.plan_isOk (h.tasks ▸ hids) hstaffed' hacyclic').mpr fun t ht hp hw hpair => ?_
  rw [← (h.allowed t).length_eq] at hpair
  exact hsplits t (h.tasks ▸ ht) hp hw hpair

namespace PlanRequest.DiffersFor

variable {res' : PlanResult}

/-- The two plans come of two runs that have parted only where they may. -/
theorem parted (h : req.DiffersFor who req') (hids : (req.tasks.map Task.id).Nodup) (hplan : s.plan req = .ok res)
    (hplan' : s.plan req' = .ok res') : ∃ order st st', res = planResult req order st ∧
      res' = planResult req' order st' ∧ req.Parted who st st' ∧
      (∀ {tid a}, st.assignments.get? tid = some a → a.taskId = tid) ∧
      ∀ {tid a}, st'.assignments.get? tid = some a → a.taskId = tid := by
  obtain ⟨order, st, hrun, hall, rfl⟩ := plan_ok hplan
  obtain ⟨order', st', hrun', hall', rfl⟩ := plan_ok hplan'
  rw [h.tasks, h.dependencies] at hrun' hall'
  obtain rfl : order' = order := Option.some.inj (hrun'.symm.trans hrun)
  have htaskId' := @assignment_taskId s.calendar req' _ order' st' (h.tasks ▸ hall')
  exact ⟨order', st, st', rfl, rfl, (startState_parted hids h).run h hall hall', assignment_taskId hall, htaskId'⟩

theorem assigned (h : req.DiffersFor who req') (hids : (req.tasks.map Task.id).Nodup) (hplan : s.plan req = .ok res)
    (hplan' : s.plan req' = .ok res') {a : Assignment} (ha : ∀ t, req.Stirred who t → t.id ≠ a.taskId) :
    a ∈ res'.assignments ↔ a ∈ res.assignments := by
  obtain ⟨order, st, st', rfl, rfl, hparted, htaskId, htaskId'⟩ := h.parted hids hplan hplan'
  constructor
  · intro hm
    obtain ⟨tid, htid, hget⟩ := mem_planResult.mp hm
    obtain rfl := htaskId' hget
    exact mem_planResult.mpr ⟨_, htid, hparted.same _ ha ▸ hget⟩
  · intro hm
    obtain ⟨tid, htid, hget⟩ := mem_planResult.mp hm
    obtain rfl := htaskId hget
    exact mem_planResult.mpr ⟨_, htid, (hparted.same _ ha).symm ▸ hget⟩

theorem kept (h : req.DiffersFor who req') (hids : (req.tasks.map Task.id).Nodup) (hplan : s.plan req = .ok res)
    (hplan' : s.plan req' = .ok res') {t : Task} (ht : t ∈ req.tasks) (hcalm : ¬ req.Stirred who t) {a : Assignment}
    (hid : a.taskId = t.id) : a ∈ res'.assignments ↔ a ∈ res.assignments := by
  refine h.assigned hids hplan hplan' fun u hu he => hcalm ?_
  rwa [← List.inj_on_of_nodup_map hids hu.mem ht (he.trans hid)]

theorem moved (h : req.DiffersFor who req') (hids : (req.tasks.map Task.id).Nodup) (hplan : s.plan req = .ok res)
    (hplan' : s.plan req' = .ok res') {tid : UUID} (htid : tid ∈ (diff res res').movedTasks) :
    ∃ t ∈ req.tasks, t.id = tid ∧ req.Stirred who t := by
  obtain ⟨a, ha, rfl, hmoved⟩ := mem_movedTasks.mp htid
  by_contra hnone
  have hkept := (h.assigned hids hplan hplan' fun t ht he => hnone ⟨t, ht.mem, he, ht⟩).mp ha
  rcases hmoved a (byTask_get? (plan_taskIds hplan).1 hkept) with hstart | hend
  · exact hstart rfl
  · exact hend rfl

/-- A flag of somebody who is not stirred is in both plans. -/
theorem flagged (h : req.DiffersFor who req') (hids : (req.tasks.map Task.id).Nodup) (hplan : s.plan req = .ok res)
    (hplan' : s.plan req' = .ok res') {r : RiskFlag} {p : UUID} {d : Date} (hlists : r.ListsOverload p d)
    (hp : ¬ req.StirredPerson who p) : r ∈ res'.overloads ↔ r ∈ res.overloads := by
  obtain ⟨order, st, st', rfl, rfl, hparted, -⟩ := h.parted hids hplan hplan'
  rw [overloads_planResult, overloads_planResult]
  constructor
  · exact fun hr => mem_overloadFlags_alike hparted.idx hr hlists hp
  · exact fun hr => mem_overloadFlags_alike hparted.idx.symm hr hlists hp

theorem overloads_changed (h : req.DiffersFor who req') (hids : (req.tasks.map Task.id).Nodup)
    (hplan : s.plan req = .ok res) (hplan' : s.plan req' = .ok res') {r : RiskFlag}
    (hr : r ∈ (diff res res').newOverloads ++ (diff res res').removedOverloads) :
    ∃ p d, r.ListsOverload p d ∧ req.StirredPerson who p := by
  have hlists : ∀ {q : PlanRequest} {plan : PlanResult}, s.plan q = .ok plan → r ∈ plan.overloads →
      ∃ p d, r.ListsOverload p d := by
    intro q plan hq hm
    obtain ⟨_, _, _, _, rfl⟩ := plan_ok hq
    exact listsOverload_of_mem (overloads_planResult ▸ hm)
  have hkey : ∀ {plan : PlanResult}, r ∈ plan.overloads → (r.personId, r.day) ∈ overloadKeys plan :=
    fun hm => List.mem_map_of_mem hm
  rcases List.mem_append.mp hr with hr | hr
  · obtain ⟨hm, hnot⟩ := mem_newOverloads.mp hr
    obtain ⟨p, d, hpd⟩ := hlists hplan' hm
    refine ⟨p, d, hpd, ?_⟩
    by_contra hp
    exact hnot (hkey ((h.flagged hids hplan hplan' hpd hp).mp hm))
  · obtain ⟨hm, hnot⟩ := mem_removedOverloads.mp hr
    obtain ⟨p, d, hpd⟩ := hlists hplan hm
    refine ⟨p, d, hpd, ?_⟩
    by_contra hp
    exact hnot (hkey ((h.flagged hids hplan hplan' hpd hp).mpr hm))

end PlanRequest.DiffersFor

end Result

/-- Other hours of some people leave every task that is not stirred where it is, with
its people and its hours; what is reported as moved is stirred, and overloads come and
go for stirred people only. -/
theorem what_if_reach (s : GreedySolver) (who : UUID → Prop) (req req' : PlanRequest) (res : PlanResult)
    (hids : (req.tasks.map Task.id).Nodup) (h : req.DiffersFor who req') (hplan : s.plan req = .ok res) :
    ∃ res', s.plan req' = .ok res' ∧
      (∀ t ∈ req.tasks, ¬ req.Stirred who t → ∀ a : Assignment, a.taskId = t.id →
        (a ∈ res'.assignments ↔ a ∈ res.assignments)) ∧
      (∀ tid ∈ (diff res res').movedTasks, ∃ t ∈ req.tasks, t.id = tid ∧ req.Stirred who t) ∧
      ∀ r ∈ (diff res res').newOverloads ++ (diff res res').removedOverloads,
        ∃ p d, r.ListsOverload p d ∧ req.StirredPerson who p := by
  obtain ⟨res', hplan'⟩ := h.plan_isOk hids hplan
  refine ⟨res', hplan', fun t ht hcalm a hid => ?_, fun tid htid => ?_, fun r hr => ?_⟩
  · exact h.kept hids hplan hplan' ht hcalm hid
  · exact h.moved hids hplan hplan' htid
  · exact h.overloads_changed hids hplan hplan' hr

/-- Boris waits for Anna and has a task of his own; Vera is by herself. -/
def threePeopleRequest : PlanRequest where
  people := [⟨1, "Анна", 8⟩, ⟨2, "Борис", 8⟩, ⟨3, "Вера", 8⟩]
  tasks := [{ id := 7, name := "Сценарий", durationHours := 8, allowedPersonIds := [1] },
    { id := 8, name := "Монтаж", durationHours := 8, allowedPersonIds := [2] },
    { id := 9, name := "Титры", durationHours := 6, allowedPersonIds := [2] },
    { id := 10, name := "Обложка", durationHours := 4, allowedPersonIds := [3] }]
  dependencies := [{ taskId := 8, dependsOnId := 7 }]
  horizonStart := Date.ofYmd 2026 6 1

/-- Anna has her Monday off. -/
theorem what_if_reach_vacation : ∃ res res', GreedySolver.onWeekdays.plan threePeopleRequest = .ok res ∧
    GreedySolver.onWeekdays.plan
      { threePeopleRequest with dayOverrides := [⟨1, Date.ofYmd 2026 6 1, 0⟩] } = .ok res' ∧
    (∀ t ∈ threePeopleRequest.tasks, ¬ threePeopleRequest.Stirred (· = 1) t → ∀ a : Assignment, a.taskId = t.id →
      (a ∈ res'.assignments ↔ a ∈ res.assignments)) ∧
    (∀ tid ∈ (diff res res').movedTasks, ∃ t ∈ threePeopleRequest.tasks, t.id = tid ∧
      threePeopleRequest.Stirred (· = 1) t) ∧
    ∀ r ∈ (diff res res').newOverloads ++ (diff res res').removedOverloads,
      ∃ p d, r.ListsOverload p d ∧ threePeopleRequest.StirredPerson (· = 1) p := by
  obtain ⟨res, hplan⟩ : ∃ res, GreedySolver.onWeekdays.plan threePeopleRequest = .ok res := ⟨_, rfl⟩
  have hother : threePeopleRequest.DiffersFor (· = 1)
      { threePeopleRequest with dayOverrides := [⟨1, Date.ofYmd 2026 6 1, 0⟩] } := by
    refine ⟨rfl, rfl, rfl, List.forall₂_same.mpr fun _ _ => ⟨rfl, fun _ => rfl⟩, fun p d hp => ?_, fun _ _ => rfl⟩
    refine PlanRequest.overrideTable_congr ?_ d
    rw [List.filter_cons, if_neg (by simpa using Ne.symm hp)]
    rfl
  obtain ⟨res', hplan', hreach⟩ := what_if_reach .onWeekdays (· = 1) threePeopleRequest _ res (by decide) hother hplan
  exact ⟨res, res', hplan, hplan', hreach⟩

end Planner
