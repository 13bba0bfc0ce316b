import Planner.Greedy

/-! What one turn of the placement loop does, and what a whole pass keeps. All
decisions depend on the remaining capacities only. -/

namespace Planner

open CapacityIndex

theorem fillDays_of_nonpos {cal : WorkingCalendar} {free : UUID → Date → Int} {pid : UUID}
    {fuel : Nat} {day : Date} {hours : Int} (h : hours ≤ 0) :
    fillDays cal free pid fuel day hours = ([], hours) := by
  cases fuel with
  | zero => rfl
  | succ fuel => simp only [fillDays, h, if_true]

theorem Placement.Before.trans {p q r : Placement} (h : p.Before q) (h' : q.Before r) :
    p.Before r := by
  unfold Placement.Before at *
  lia

theorem Placement.Before.trans_not {p q r : Placement} (h : p.Before q) (h' : ¬ r.Before q) :
    p.Before r := by
  unfold Placement.Before at *
  lia

/-- `person` wins the race with placement `p`: strictly before everyone of
higher priority, not after anyone of lower priority. -/
def Wins (task : Task) (earliest : Date) (cal : WorkingCalendar) (free : UUID → Date → Int)
    (limit : Date) (allowed : List Person) (person : Person) (p : Placement) : Prop :=
  ∃ pre post, allowed = pre ++ person :: post ∧
    placementOf task person.id earliest cal free limit = .ok p ∧
    (∀ c ∈ pre, ∃ q, placementOf task c.id earliest cal free limit = .ok q ∧ p.Before q) ∧
    ∀ c ∈ post, ∃ q, placementOf task c.id earliest cal free limit = .ok q ∧ ¬ q.Before p

theorem allocate_ok {task : Task} {person : Person} {earliest : Date} {cal : WorkingCalendar}
    {idx idx' : CapacityIndex} {limit : Date} {p : Placement}
    (h : allocate task person earliest cal idx limit = .ok (p, idx')) :
    placementOf task person.id earliest cal idx.free limit = .ok p ∧ SameLoad idx idx' := by
  refine ⟨?_, allocate_sameLoad h⟩
  rw [← allocate_eq, h]
  rfl

theorem bestCandidate_some {task : Task} {earliest : Date} {cal : WorkingCalendar} {limit : Date}
    {cands : List Person} {q p : Placement} {holder person : Person}
    {idx idx' : CapacityIndex}
    (h : bestCandidate task earliest cal limit cands (some (q, holder)) idx =
      .ok (some (p, person), idx')) :
    SameLoad idx idx' ∧
      ((p = q ∧ person = holder ∧ ∀ c ∈ cands,
          ∃ r, placementOf task c.id earliest cal idx.free limit = .ok r ∧ ¬ r.Before q) ∨
        (p.Before q ∧ Wins task earliest cal idx.free limit cands person p)) := by
  induction cands generalizing q holder idx with
  | nil =>
    simp only [bestCandidate, Except.ok.injEq, Prod.mk.injEq, Option.some.injEq] at h
    obtain ⟨⟨rfl, rfl⟩, rfl⟩ := h
    exact ⟨SameLoad.refl _, Or.inl ⟨rfl, rfl, by simp⟩⟩
  | cons c cands ih =>
    simp only [bestCandidate] at h
    split at h
    · cases h
    · rename_i r idx₁ ha
      obtain ⟨hr, hl⟩ := allocate_ok ha
      split at h
      · rename_i hbefore
        obtain ⟨hl', hh⟩ := ih h
        rw [hl.free] at hh
        refine ⟨hl.trans hl', Or.inr ?_⟩
        rcases hh with ⟨rfl, rfl, hrest⟩ | ⟨hpr, pre, post, he, hp, hpre, hpost⟩
        · exact ⟨hbefore, [], cands, rfl, hr, by simp, hrest⟩
        · refine ⟨hpr.trans hbefore, c :: pre, post, by simp [he], hp, ?_, hpost⟩
          rintro d hd
          rcases List.mem_cons.mp hd with rfl | hd
          · exact ⟨r, hr, hpr⟩
          · exact hpre d hd
      · rename_i hbefore
        obtain ⟨hl', hh⟩ := ih h
        rw [hl.free] at hh
        refine ⟨hl.trans hl', ?_⟩
        rcases hh with ⟨rfl, rfl, hrest⟩ | ⟨hpq, pre, post, he, hp, hpre, hpost⟩
        · refine Or.inl ⟨rfl, rfl, fun d hd => ?_⟩
          rcases List.mem_cons.mp hd with rfl | hd
          · exact ⟨r, hr, hbefore⟩
          · exact hrest d hd
        · refine Or.inr ⟨hpq, c :: pre, post, by simp [he], hp, ?_, hpost⟩
          intro d hd
          rcases List.mem_cons.mp hd with rfl | hd
          · exact ⟨r, hr, hpq.trans_not hbefore⟩
          · exact hpre d hd

theorem bestCandidate_none {task : Task} {earliest : Date} {cal : WorkingCalendar} {limit : Date}
    {cands : List Person} {p : Placement} {person : Person} {idx idx' : CapacityIndex}
    (h : bestCandidate task earliest cal limit cands none idx = .ok (some (p, person), idx')) :
    SameLoad idx idx' ∧ Wins task earliest cal idx.free limit cands person p := by
  cases cands with
  | nil => simp [bestCandidate] at h
  | cons c cands =>
    simp only [bestCandidate] at h
    split at h
    · cases h
    · rename_i r idx₁ ha
      obtain ⟨hr, hl⟩ := allocate_ok ha
      obtain ⟨hl', hh⟩ := bestCandidate_some h
      rw [hl.free] at hh
      refine ⟨hl.trans hl', ?_⟩
      rcases hh with ⟨rfl, rfl, hrest⟩ | ⟨hpr, pre, post, he, hp, hpre, hpost⟩
      · exact ⟨[], cands, rfl, hr, by simp, hrest⟩
      · refine ⟨c :: pre, post, by simp [he], hp, ?_, hpost⟩
        intro d hd
        rcases List.mem_cons.mp hd with rfl | hd
        · exact ⟨r, hr, hpr⟩
        · exact hpre d hd

/-- Where the solver puts a task, by placement mode. -/
inductive Placed (task : Task) (earliest : Date) (cal : WorkingCalendar)
    (free : UUID → Date → Int) (limit : Date) (allowed : List Person) : Person → Placement → Prop
  | window {person : Person} {rest : List Person} (hw : task.durationIsWindow = true)
      (ha : allowed = person :: rest) :
      Placed task earliest cal free limit allowed person (allocateWindow task earliest cal)
  | pair {p1 p2 : Person} {rest : List Person} (hw : task.durationIsWindow = false)
      (hm : task.pairMode = .required) (ha : allowed = p1 :: p2 :: rest) :
      Placed task earliest cal free limit allowed p1
        (.onDay [p1.id, p2.id] ((firstFit cal free [p1.id, p2.id] task.durationHours
          (limit + 1 - firstWorkingDay cal earliest) (firstWorkingDay cal earliest)).getD
            (firstWorkingDay cal earliest)) task.durationHours)
  | single {person : Person} {p : Placement} (hw : task.durationIsWindow = false)
      (hm : task.pairMode = .required → allowed.length < 2)
      (h : Wins task earliest cal free limit allowed person p) :
      Placed task earliest cal free limit allowed person p

theorem placeOn_ok {task : Task} {earliest : Date} {allowed : List Person} {cal : WorkingCalendar}
    {idx idx' : CapacityIndex} {limit : Date} {p : Placement} {person : Person}
    (h : placeOn task earliest allowed cal idx limit = .ok (p, person, idx')) :
    Placed task earliest cal idx.free limit allowed person p ∧ SameLoad idx idx' := by
  unfold placeOn at h
  split at h
  · rename_i hw
    split at h
    · cases h
    · simp only [Except.ok.injEq, Prod.mk.injEq] at h
      obtain ⟨rfl, rfl, rfl⟩ := h
      exact ⟨.window hw rfl, SameLoad.refl _⟩
  · rename_i hw
    have hw' : task.durationIsWindow = false := by simpa using hw
    split at h
    · rename_i p1 p2 rest hm
      simp only [allocatePair, Except.ok.injEq, Prod.mk.injEq] at h
      obtain ⟨rfl, rfl, rfl⟩ := h
      obtain ⟨hv, hl⟩ := allocateTogether_spec [p1.id, p2.id] task earliest cal idx limit
      rw [hv]
      exact ⟨.pair hw' hm rfl, hl⟩
    · rename_i allowed _ _ hne
      split at h
      · cases h
      · cases h
      · rename_i p' person' idx₁ hb
        simp only [Except.ok.injEq, Prod.mk.injEq] at h
        obtain ⟨rfl, rfl, rfl⟩ := h
        obtain ⟨hl, hwin⟩ := bestCandidate_none hb
        refine ⟨.single hw' (fun hm => ?_) hwin, hl⟩
        rcases allowed with _ | ⟨p1, _ | ⟨p2, rest⟩⟩
        · simp
        · simp
        · exact absurd rfl (hne p1 p2 rest hm)

theorem Placed.start_ge {task : Task} {earliest : Date} {cal : WorkingCalendar}
    {free : UUID → Date → Int} {limit : Date} {allowed : List Person} {person : Person}
    {p : Placement} (h : Placed task earliest cal free limit allowed person p) :
    firstWorkingDay cal earliest ≤ p.startDate := by
  cases h with
  | window => exact le_rfl
  | pair =>
    simp only [Placement.onDay]
    cases hf : firstFit cal free _ task.durationHours _ (firstWorkingDay cal earliest) with
    | none => exact le_rfl
    | some d => exact (firstFit_eq_some_iff.mp hf).2.1.1
  | single _ _ h =>
    obtain ⟨_, _, _, hp, _⟩ := h
    exact placementOf_start hp

def Placement.toAssignment (p : Placement) (tid : UUID) (person : Person) : Assignment :=
  ⟨tid, person.id, p.startDate, p.endDate, p.allocs⟩

/-- One turn of the loop either leaves the state alone or places its task. -/
theorem placeTask_cases {cal : WorkingCalendar} {req : PlanRequest} {graph : Dag}
    {st st' : PlanState} {tid : UUID} (h : placeTask cal req graph st tid = .ok st') :
    (st' = st ∧ (tid ∈ st.assignments.keys ∨ (tasksById req).get? tid = none)) ∨
    ∃ task person p idx, tid ∉ st.assignments.keys ∧ (tasksById req).get? tid = some task ∧
      Placed task (earliestStart task graph st.assignments req.horizonStart cal) cal st.idx.free
        (horizonLimit req) (allowedPeople req task) person p ∧
      SameLoad st.idx idx ∧
      st' = ⟨idx.occupy p.allocs, st.assignments.insert tid (p.toAssignment tid person)⟩ := by
  unfold placeTask at h
  split at h
  · rename_i hc
    exact Or.inl ⟨(Except.ok.inj h).symm, Or.inl (OrdDict.mem_keys.mpr hc)⟩
  · rename_i hc
    split at h
    · rename_i hn
      exact Or.inl ⟨(Except.ok.inj h).symm, Or.inr hn⟩
    · rename_i task ht
      dsimp only at h
      split at h
      · cases h
      · rename_i p person idx hp
        obtain ⟨hplaced, hl⟩ := placeOn_ok hp
        refine Or.inr ⟨task, person, p, idx, fun hk => hc (OrdDict.mem_keys.mp hk), ht, hplaced,
          hl, (Except.ok.inj h).symm⟩

theorem placeAll_append {cal : WorkingCalendar} {req : PlanRequest} {graph : Dag}
    {pre post : List UUID} {st st' : PlanState}
    (h : placeAll cal req graph (pre ++ post) st = .ok st') :
    ∃ mid, placeAll cal req graph pre st = .ok mid ∧ placeAll cal req graph post mid = .ok st' := by
  induction pre generalizing st with
  | nil => exact ⟨st, rfl, h⟩
  | cons tid pre ih =>
    simp only [List.cons_append, placeAll] at h ⊢
    split at h
    · cases h
    · rename_i st₁ h₁
      exact ih h

/-- Induction over a pass of the loop: `motive` holds of the state at the start
of every turn and of the result. -/
theorem placeAll_induction {cal : WorkingCalendar} {req : PlanRequest} {graph : Dag}
    {motive : PlanState → Prop} {order : List UUID} {st st' : PlanState}
    (step : ∀ tid ∈ order, ∀ s s', motive s → placeTask cal req graph s tid = .ok s' → motive s')
    (h₀ : motive st) (h : placeAll cal req graph order st = .ok st') : motive st' := by
  induction order generalizing st with
  | nil => exact Except.ok.inj h ▸ h₀
  | cons tid order ih =>
    simp only [placeAll] at h
    split at h
    · cases h
    · rename_i st₁ h₁
      exact ih (fun t ht => step t (List.mem_cons_of_mem _ ht))
        (step tid List.mem_cons_self st st₁ h₀ h₁) h

theorem placeAll_keeps {cal : WorkingCalendar} {req : PlanRequest} {graph : Dag}
    {order : List UUID} {st st' : PlanState} {tid : UUID} {a : Assignment}
    (ha : st.assignments.get? tid = some a) (h : placeAll cal req graph order st = .ok st') :
    st'.assignments.get? tid = some a := by
  refine placeAll_induction (motive := fun s => s.assignments.get? tid = some a) ?_ ha h
  intro t _ s s' hs hstep
  rcases placeTask_cases hstep with ⟨rfl, -⟩ | ⟨task, person, p, idx, hnew, -, -, -, rfl⟩
  · exact hs
  · have hne : tid ≠ t := by
      rintro rfl
      exact hnew (OrdDict.mem_keys.mpr (by simp [hs]))
    rw [OrdDict.get?_insert_of_ne _ _ hne, hs]

theorem placeAll_keys {cal : WorkingCalendar} {req : PlanRequest} {graph : Dag}
    {order : List UUID} {st st' : PlanState} {tid : UUID}
    (h : placeAll cal req graph order st = .ok st') (hk : tid ∈ st'.assignments.keys) :
    tid ∈ st.assignments.keys ∨ tid ∈ order := by
  refine placeAll_induction
    (motive := fun s => tid ∈ s.assignments.keys → tid ∈ st.assignments.keys ∨ tid ∈ order)
    ?_ Or.inl h hk
  intro t ht s s' hs hstep hk'
  rcases placeTask_cases hstep with ⟨rfl, -⟩ | ⟨task, person, p, idx, -, -, -, -, rfl⟩
  · exact hs hk'
  · rcases OrdDict.mem_keys_insert.mp hk' with rfl | hk'
    · exact Or.inr ht
    · exact hs hk'

theorem placeTask_places {cal : WorkingCalendar} {req : PlanRequest} {graph : Dag}
    {st st' : PlanState} {tid : UUID} {task : Task}
    (h : placeTask cal req graph st tid = .ok st') (ht : (tasksById req).get? tid = some task) :
    tid ∈ st'.assignments.keys := by
  rcases placeTask_cases h with ⟨rfl, hk | hn⟩ | ⟨task', person, p, idx, -, -, -, -, rfl⟩
  · exact hk
  · simp [hn] at ht
  · exact OrdDict.mem_keys_insert.mpr (Or.inl rfl)

theorem placeAll_places {cal : WorkingCalendar} {req : PlanRequest} {graph : Dag}
    {order : List UUID} {st st' : PlanState} {tid : UUID} {task : Task} (hm : tid ∈ order)
    (h : placeAll cal req graph order st = .ok st') (ht : (tasksById req).get? tid = some task) :
    tid ∈ st'.assignments.keys := by
  obtain ⟨pre, post, rfl⟩ := List.append_of_mem hm
  obtain ⟨s₁, -, h₁⟩ := placeAll_append h
  simp only [placeAll] at h₁
  split at h₁
  · cases h₁
  · rename_i s₂ h₂
    have hk := placeTask_places h₂ ht
    obtain ⟨a, ha⟩ := Option.isSome_iff_exists.mp (OrdDict.mem_keys.mp hk)
    exact OrdDict.mem_keys.mpr (by simp [placeAll_keeps ha h₁])

theorem plan_ok {s : GreedySolver} {req : PlanRequest} {res : PlanResult}
    (h : s.plan req = .ok res) :
    ∃ order st, s.topologicalSort.run (buildDag req.tasks req.dependencies) = some order ∧
      placeAll s.calendar req (buildDag req.tasks req.dependencies) order
        (startState s.calendar req) = .ok st ∧
      res = planResult req order st := by
  unfold GreedySolver.plan at h
  split at h
  · cases h
  · dsimp only at h
    split at h
    · cases h
    · rename_i order ho
      split at h
      · cases h
      · rename_i st hst
        exact ⟨order, st, ho, hst, (Except.ok.inj h).symm⟩

theorem tasksById_get? {req : PlanRequest} (hids : (req.tasks.map Task.id).Nodup) {t : Task}
    (ht : t ∈ req.tasks) : (tasksById req).get? t.id = some t := by
  apply OrdDict.get?_ofList_of_mem
  · simpa [Function.comp_def] using hids
  · exact List.mem_map.mpr ⟨t, ht, rfl⟩

theorem mem_of_tasksById {req : PlanRequest} {tid : UUID} {t : Task}
    (h : (tasksById req).get? tid = some t) : t ∈ req.tasks ∧ t.id = tid := by
  have hm := OrdDict.mem_of_get?_ofList h
  obtain ⟨u, hu, he⟩ := List.mem_map.mp hm
  simp only [Prod.mk.injEq] at he
  exact ⟨he.2 ▸ hu, he.2 ▸ he.1⟩

theorem Task.pinned?_taskId {t : Task} {a : Assignment} (h : t.pinned? = some a) :
    a.taskId = t.id := by
  unfold Task.pinned? at h
  split at h
  · exact (Option.some.inj h) ▸ rfl
  · cases h

theorem pinTask_get? {st : PlanState} {t : Task} {tid : UUID} {a : Assignment}
    (h : (pinTask st t).assignments.get? tid = some a) :
    (tid = t.id ∧ t.pinned? = some a) ∨ st.assignments.get? tid = some a := by
  unfold pinTask at h
  split at h
  · rename_i b hb
    rw [OrdDict.get?_insert] at h
    split at h
    · rename_i he
      exact Or.inl ⟨he, hb.trans h⟩
    · exact Or.inr h
  · exact Or.inr h

theorem startState_get? {cal : WorkingCalendar} {req : PlanRequest} {tid : UUID} {a : Assignment}
    (h : (startState cal req).assignments.get? tid = some a) :
    ∃ t ∈ req.tasks, t.id = tid ∧ t.pinned? = some a := by
  have key : ∀ (ts : List Task) (st : PlanState),
      (ts.foldl pinTask st).assignments.get? tid = some a →
        (∃ t ∈ ts, t.id = tid ∧ t.pinned? = some a) ∨ st.assignments.get? tid = some a := by
    intro ts
    induction ts with
    | nil => exact fun st hst => Or.inr hst
    | cons t ts ih =>
      intro st hst
      rcases ih _ hst with ⟨u, hu, hh⟩ | hh
      · exact Or.inl ⟨u, List.mem_cons_of_mem _ hu, hh⟩
      · rcases pinTask_get? hh with ⟨he, hp⟩ | hh
        · exact Or.inl ⟨t, List.mem_cons_self, he.symm, hp⟩
        · exact Or.inr hh
  rcases key _ _ h with hh | hh
  · exact hh
  · simp at hh

theorem not_mem_startState {cal : WorkingCalendar} {req : PlanRequest} {t : Task}
    (hids : (req.tasks.map Task.id).Nodup) (ht : t ∈ req.tasks) (hp : t.pinned? = none) :
    t.id ∉ (startState cal req).assignments.keys := by
  intro hk
  obtain ⟨a, ha⟩ := Option.isSome_iff_exists.mp (OrdDict.mem_keys.mp hk)
  obtain ⟨u, hu, hid, hpu⟩ := startState_get? ha
  obtain rfl := List.inj_on_of_nodup_map hids hu ht hid
  simp [hp] at hpu

theorem assignment_taskId {cal : WorkingCalendar} {req : PlanRequest} {graph : Dag}
    {order : List UUID} {st : PlanState}
    (h : placeAll cal req graph order (startState cal req) = .ok st) {tid : UUID} {a : Assignment}
    (ha : st.assignments.get? tid = some a) : a.taskId = tid := by
  refine placeAll_induction (motive := fun s => ∀ tid a, s.assignments.get? tid = some a →
    a.taskId = tid) ?_ ?_ h tid a ha
  · intro t _ s s' hs hstep tid a ha
    rcases placeTask_cases hstep with ⟨rfl, -⟩ | ⟨task, person, p, idx, -, -, -, -, rfl⟩
    · exact hs tid a ha
    · rw [OrdDict.get?_insert] at ha
      split at ha
      · rename_i he
        rw [← Option.some.inj ha]
        exact he.symm
      · exact hs tid a ha
  · intro tid a ha
    obtain ⟨t, -, hid, hp⟩ := startState_get? ha
    rw [Task.pinned?_taskId hp, hid]

/-- The turn at which a movable task was placed: what had been placed before
it, and where it went. -/
theorem turn_at {cal : WorkingCalendar} {req : PlanRequest} {graph : Dag} {pre post : List UUID}
    {st : PlanState} (hids : (req.tasks.map Task.id).Nodup) {t : Task}
    (horder : (pre ++ t.id :: post).Nodup)
    (h : placeAll cal req graph (pre ++ t.id :: post) (startState cal req) = .ok st)
    (ht : t ∈ req.tasks) (hp : t.pinned? = none) :
    ∃ mid person p idx, placeAll cal req graph pre (startState cal req) = .ok mid ∧
      Placed t (earliestStart t graph mid.assignments req.horizonStart cal) cal mid.idx.free
        (horizonLimit req) (allowedPeople req t) person p ∧
      SameLoad mid.idx idx ∧
      placeAll cal req graph post
        ⟨idx.occupy p.allocs, mid.assignments.insert t.id (p.toAssignment t.id person)⟩ = .ok st := by
  obtain ⟨mid, hpre, hrest⟩ := placeAll_append h
  simp only [placeAll] at hrest
  split at hrest
  · cases hrest
  · rename_i s' hstep
    have hnot : t.id ∉ mid.assignments.keys := by
      intro hk
      rcases placeAll_keys hpre hk with hk | hk
      · exact not_mem_startState hids ht hp hk
      · exact (List.nodup_append.mp horder).2.2 _ hk _ List.mem_cons_self rfl
    rcases placeTask_cases hstep with ⟨-, hk | hn⟩ | ⟨task, person, p, idx, -, htask, hpl, hl, rfl⟩
    · exact absurd hk hnot
    · simp [tasksById_get? hids ht] at hn
    · obtain rfl : t = task := Option.some.inj ((tasksById_get? hids ht).symm.trans htask)
      exact ⟨mid, person, p, idx, hpre, hpl, hl, hrest⟩

theorem turn_of_task {cal : WorkingCalendar} {req : PlanRequest} {graph : Dag}
    {order : List UUID} {st : PlanState} (hids : (req.tasks.map Task.id).Nodup)
    (horder : order.Nodup) (h : placeAll cal req graph order (startState cal req) = .ok st)
    {t : Task} (ht : t ∈ req.tasks) (hm : t.id ∈ order) (hp : t.pinned? = none) :
    ∃ pre post mid person p idx, order = pre ++ t.id :: post ∧
      placeAll cal req graph pre (startState cal req) = .ok mid ∧
      Placed t (earliestStart t graph mid.assignments req.horizonStart cal) cal mid.idx.free
        (horizonLimit req) (allowedPeople req t) person p ∧
      SameLoad mid.idx idx ∧
      placeAll cal req graph post
        ⟨idx.occupy p.allocs, mid.assignments.insert t.id (p.toAssignment t.id person)⟩ = .ok st := by
  obtain ⟨pre, post, rfl⟩ := List.append_of_mem hm
  obtain ⟨mid, person, p, idx, hturn⟩ := turn_at hids horder h ht hp
  exact ⟨pre, post, mid, person, p, idx, rfl, hturn⟩

theorem mem_planResult {req : PlanRequest} {order : List UUID} {st : PlanState} {a : Assignment} :
    a ∈ (planResult req order st).assignments ↔
      ∃ tid ∈ order, st.assignments.get? tid = some a := by
  simp [planResult, List.mem_filterMap]

theorem filed_of_mem_planResult {cal : WorkingCalendar} {req : PlanRequest} {graph : Dag} {order : List UUID}
    {st : PlanState} (h : placeAll cal req graph order (startState cal req) = .ok st) {a : Assignment}
    (ha : a ∈ (planResult req order st).assignments) : st.assignments.get? a.taskId = some a := by
  obtain ⟨tid, -, hget⟩ := mem_planResult.mp ha
  rwa [assignment_taskId h hget]

theorem placed_mem {cal : WorkingCalendar} {req : PlanRequest} {graph : Dag} {order : List UUID}
    {st : PlanState} (h : placeAll cal req graph order (startState cal req) = .ok st) {tid : UUID}
    (hk : tid ∈ st.assignments.keys) : tid ∈ req.tasks.map Task.id := by
  refine placeAll_induction (motive := fun s => tid ∈ s.assignments.keys → tid ∈ req.tasks.map Task.id)
    ?_ ?_ h hk
  · intro t _ s s' hs hstep hk'
    rcases placeTask_cases hstep with ⟨rfl, -⟩ | ⟨task, person, p, idx, -, htask, -, -, rfl⟩
    · exact hs hk'
    · rcases OrdDict.mem_keys_insert.mp hk' with rfl | hk'
      · obtain ⟨hm, hid⟩ := mem_of_tasksById htask
        exact List.mem_map.mpr ⟨task, hm, hid⟩
      · exact hs hk'
  · intro hk'
    obtain ⟨a, ha⟩ := Option.isSome_iff_exists.mp (OrdDict.mem_keys.mp hk')
    obtain ⟨t, ht, hid, -⟩ := startState_get? ha
    exact List.mem_map.mpr ⟨t, ht, hid⟩

theorem plan_taskIds {s : GreedySolver} {req : PlanRequest} {res : PlanResult}
    (h : s.plan req = .ok res) :
    (res.assignments.map Assignment.taskId).Nodup ∧
      ∀ a ∈ res.assignments, a.taskId ∈ req.tasks.map Task.id := by
  obtain ⟨order, st, hrun, hall, rfl⟩ := plan_ok h
  have hnodup := (s.topologicalSort.sound _ _ hrun).nodup
  constructor
  · have key : ∀ l : List UUID,
        ((l.filterMap st.assignments.get?).map Assignment.taskId).Sublist l := by
      intro l
      induction l with
      | nil => exact List.Sublist.refl _
      | cons tid l ih =>
        rw [List.filterMap_cons]
        cases ha : st.assignments.get? tid with
        | none => exact ih.cons tid
        | some a =>
          rw [List.map_cons, assignment_taskId hall ha]
          exact ih.cons_cons tid
    exact (key order).nodup hnodup
  · intro a ha
    have hfiled := filed_of_mem_planResult hall ha
    exact placed_mem hall (OrdDict.mem_keys.mpr (by simp [hfiled]))

end Planner
