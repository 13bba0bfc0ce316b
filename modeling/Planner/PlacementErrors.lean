import Planner.PlacementLoop

/-! When a turn of the placement loop gets through: a race needs a candidate, and
a splittable task in it some hours to spread. -/

namespace Planner

/-- Somebody is there, and if there is a race to be run the task has hours for it. -/
structure Task.PlaceableBy (task : Task) (allowed : List Person) : Prop where
  staffed : allowed ≠ []
  hours : task.durationIsWindow = false → ¬ (task.pairMode = .required ∧ 2 ≤ allowed.length) →
    task.isSplittable = true → 0 < task.durationHours

theorem fillDays_rest_of_nil {cal : WorkingCalendar} {free : UUID → Date → Int} {pid : UUID} {fuel : Nat}
    {day : Date} {hours : Int} (h : (fillDays cal free pid fuel day hours).1 = []) :
    (fillDays cal free pid fuel day hours).2 = hours := by
  induction fuel generalizing day with
  | zero => rfl
  | succ fuel ih =>
    simp only [fillDays] at h ⊢
    split at h
    · simp_all
    · split at h
      · cases h
      · rename_i h0 hd
        simp only [h0, hd, if_false]
        exact ih h

theorem Placement.spanning_isOk {allocs : List DayAllocation} :
    (∃ p, Placement.spanning allocs = .ok p) ↔ allocs ≠ [] := by
  constructor
  · rintro ⟨p, h⟩ rfl
    obtain ⟨-, a, ha, -⟩ := Placement.spanning_ok h
    cases ha
  · intro hne
    unfold Placement.spanning
    split
    · exact ⟨_, rfl⟩
    · rename_i hnone
      exfalso
      have hdays : allocs.map DayAllocation.day ≠ [] := by simpa using hne
      obtain ⟨s, hs⟩ := Option.isSome_iff_exists.mp (List.isSome_min?_of_ne_nil hdays)
      obtain ⟨e, he⟩ := Option.isSome_iff_exists.mp (List.isSome_max?_of_ne_nil hdays)
      exact hnone s e hs he

theorem placementOf_isOk {task : Task} {pid : UUID} {earliest : Date} {cal : WorkingCalendar}
    {free : UUID → Date → Int} {limit : Date} :
    (∃ p, placementOf task pid earliest cal free limit = .ok p) ↔
      (task.isSplittable = true → 0 < task.durationHours) := by
  unfold placementOf
  split
  · rename_i hs
    simp only [Placement.spanning_isOk, hs, true_implies]
    constructor
    · intro hne
      by_contra h0
      refine hne ?_
      simp only [fillDays_of_nonpos (not_lt.mp h0), h0, if_false]
    · intro hpos
      split
      · simp
      · rename_i hrest
        intro hnil
        rw [fillDays_rest_of_nil hnil] at hrest
        exact hrest hpos
  · rename_i hs
    simp [hs]

theorem allocate_isOk {task : Task} {person : Person} {earliest : Date} {cal : WorkingCalendar}
    {idx : CapacityIndex} {limit : Date} :
    (∃ r, allocate task person earliest cal idx limit = .ok r) ↔
      (task.isSplittable = true → 0 < task.durationHours) := by
  rw [← @placementOf_isOk task person.id earliest cal idx.free limit, ← allocate_eq]
  cases allocate task person earliest cal idx limit <;> simp [Except.map]

/-- Candidates race to the end if there are any and each finds a place. -/
theorem bestCandidate_isOk {task : Task} (hs : task.isSplittable = true → 0 < task.durationHours)
    {earliest : Date} {cal : WorkingCalendar} {limit : Date} {cands : List Person}
    {best : Option (Placement × Person)} (h : cands ≠ [] ∨ best ≠ none) (idx : CapacityIndex) :
    ∃ p person idx', bestCandidate task earliest cal limit cands best idx =
      .ok (some (p, person), idx') := by
  induction cands generalizing best idx with
  | nil =>
    obtain ⟨⟨p, person⟩, rfl⟩ := Option.ne_none_iff_exists'.mp (h.resolve_left (by simp))
    exact ⟨p, person, idx, rfl⟩
  | cons c cands ih =>
    obtain ⟨⟨p, idx'⟩, ha⟩ := (@allocate_isOk task c earliest cal idx limit).mpr hs
    simp only [bestCandidate, ha]
    split
    · exact ih (Or.inr (by simp)) idx'
    · split
      · exact ih (Or.inr (by simp)) idx'
      · exact ih (Or.inr (by simp)) idx'

theorem placeOn_isOk {task : Task} {earliest : Date} {allowed : List Person} {cal : WorkingCalendar}
    {idx : CapacityIndex} {limit : Date} :
    (∃ r, placeOn task earliest allowed cal idx limit = .ok r) ↔ task.PlaceableBy allowed := by
  unfold placeOn
  split
  · rename_i hw
    cases allowed with
    | nil => exact ⟨nofun, fun h => absurd rfl h.staffed⟩
    | cons person rest => exact ⟨fun _ => ⟨by simp, fun hw' => by simp [hw] at hw'⟩, fun _ => ⟨_, rfl⟩⟩
  · rename_i hw
    have hw' : task.durationIsWindow = false := by simpa using hw
    split
    · rename_i p1 p2 rest hm
      exact ⟨fun _ => ⟨by simp, fun _ hno => absurd ⟨hm, by simp⟩ hno⟩, fun _ => ⟨_, rfl⟩⟩
    · rename_i allowed _ _ hne
      have halone : ¬ (task.pairMode = .required ∧ 2 ≤ allowed.length) := by
        rintro ⟨hm, hl⟩
        match allowed, hl with
        | p1 :: p2 :: rest, _ => exact hne p1 p2 rest hm rfl
      constructor
      · rintro ⟨r, h⟩
        split at h
        · cases h
        · cases h
        · rename_i p person idx' hb
          obtain ⟨-, pre, post, rfl, hp, -⟩ := bestCandidate_none hb
          exact ⟨by simp, fun _ _ => placementOf_isOk.mp ⟨p, hp⟩⟩
      · intro h
        obtain ⟨p, person, idx', hb⟩ := @bestCandidate_isOk task (h.hours hw' halone) earliest cal limit allowed
          none (Or.inl h.staffed) idx
        rw [hb]
        exact ⟨_, rfl⟩

section Loop

variable {cal : WorkingCalendar} {req : PlanRequest} {graph : Dag}

theorem placeTask_isOk {st : PlanState} {tid : UUID} :
    (∃ st', placeTask cal req graph st tid = .ok st') ↔ (tid ∉ st.assignments.keys →
      ∀ task, (tasksById req).get? tid = some task → task.PlaceableBy (allowedPeople req task)) := by
  unfold placeTask
  split
  · rename_i hc
    exact ⟨fun _ hnew => absurd (OrdDict.mem_keys.mpr hc) hnew, fun _ => ⟨_, rfl⟩⟩
  · rename_i hc
    have hnew : tid ∉ st.assignments.keys := fun hk => hc (OrdDict.mem_keys.mp hk)
    split
    · rename_i hnone
      refine ⟨fun _ _ task htask => ?_, fun _ => ⟨_, rfl⟩⟩
      rw [hnone] at htask
      cases htask
    · rename_i task htask
      dsimp only
      constructor
      · rintro ⟨st', h⟩ - task' htask'
        obtain rfl := Option.some.inj (htask.symm.trans htask')
        split at h
        · cases h
        · rename_i hp
          exact placeOn_isOk.mp ⟨_, hp⟩
      · intro h
        obtain ⟨⟨p, person, idx⟩, hp⟩ := (@placeOn_isOk task
          (earliestStart task graph st.assignments req.horizonStart cal) (allowedPeople req task) cal st.idx
          (horizonLimit req)).mpr (h hnew task htask)
        rw [hp]
        exact ⟨_, rfl⟩

/-- A pass gets through if and only if every turn of it does, and whether a turn
does is settled by its task. -/
theorem placeAll_isOk {order : List UUID} {st : PlanState} (hnodup : order.Nodup) :
    (∃ st', placeAll cal req graph order st = .ok st') ↔ ∀ tid ∈ order, tid ∉ st.assignments.keys →
      ∀ task, (tasksById req).get? tid = some task → task.PlaceableBy (allowedPeople req task) := by
  induction order generalizing st with
  | nil => exact ⟨fun _ => by simp, fun _ => ⟨st, rfl⟩⟩
  | cons tid order ih =>
    obtain ⟨hnot, hrest⟩ := List.nodup_cons.mp hnodup
    have hturn := @placeTask_isOk cal req graph st tid
    rw [List.forall_mem_cons, ← hturn]
    cases hstep : placeTask cal req graph st tid with
    | error e => simp [placeAll, hstep]
    | ok st₁ =>
      -- the turn files at most its own task, which is not in the rest
      have hkeys : ∀ t ∈ order, t ∈ st₁.assignments.keys ↔ t ∈ st.assignments.keys := by
        intro t ht
        rcases placeTask_cases hstep with ⟨rfl, -⟩ | ⟨task, person, p, idx, -, -, -, -, rfl⟩
        · rfl
        · have hne : t ≠ tid := fun he => hnot (he ▸ ht)
          simp [OrdDict.mem_keys_insert, hne]
      simp only [placeAll, hstep]
      rw [ih hrest]
      constructor
      · exact fun h => ⟨⟨st₁, rfl⟩, fun t ht hnew => h t ht (mt (hkeys t ht).mp hnew)⟩
      · exact fun h t ht hnew => h.2 t ht (mt (hkeys t ht).mpr hnew)

end Loop

end Planner
