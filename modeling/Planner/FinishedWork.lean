import Planner.Bookings
import Planner.ReplanRequest

/-! Finished work and replans. The rebuilt request does not say which tasks are
done, so the solver packs them again with all the others. -/

namespace Planner

/-- A task of a committed plan that is marked done, and no window. -/
def Store.Finished (s : Store) (a : Assignment) : Prop :=
  a ∈ s.committedAssignments ∧
    ∃ row, s.tasks.get? a.taskId = some row ∧ row.status = .done ∧ row.durationIsWindow = false

/-- An admin's mark finishes a committed task. -/
theorem markTaskDone_finished {s : Store} {a : Assignment} {row : TaskRow} (actorId : Option UUID)
    (ha : a ∈ s.committedAssignments) (hrow : s.tasks.get? a.taskId = some row)
    (hwindow : row.durationIsWindow = false) :
    ((markTaskDone a.taskId actorId true).run s).2.Finished a := by
  obtain ⟨audit, haudit⟩ := addAudit_run actorId "mark_task" "task" (some a.taskId)
    (some [("status", .text "done")]) (s.modifyTask a.taskId ({ · with status := .done }))
  have hrun : ((markTaskDone a.taskId actorId true).run s).2 =
      (s.modifyTask a.taskId ({ · with status := .done })).logged audit := by
    rw [← haudit]
    simp only [markTaskDone, Bool.not_true, Bool.false_eq_true, if_false, taskStatusOf, Program.run_bind,
      Repo.setTaskStatus, Program.run_call]
  rw [hrun]
  refine ⟨ha, { row with status := .done }, ?_, rfl, hwindow⟩
  change (s.tasks.modify a.taskId _).get? a.taskId = _
  rw [OrdDict.get?_modify_self, hrow]
  rfl

/-- The same dates, the same person, and the same hours reserved. -/
structure Assignment.StaysAs (b a : Assignment) : Prop where
  taskId : b.taskId = a.taskId
  person : b.personId = a.personId
  start : b.startDate = a.startDate
  end_ : b.endDate = a.endDate
  hours : ∀ p d, hoursOn b.allocations p d = hoursOn a.allocations p d

/-- The re-solve leaves finished work where it is, and has it in place at the
turn of every other task. -/
structure FinishedKept (solver : GreedySolver) (req : PlanRequest) (plan : PlanResult)
    (finished : Assignment → Prop) : Prop where
  kept : ∀ a, finished a → ∃ b ∈ plan.assignments, b.StaysAs a
  first : ∀ order, solver.topologicalSort.run (buildDag req.tasks req.dependencies) = some order →
    ∀ pre tid post mid, order = pre ++ tid :: post → (∀ a, finished a → a.taskId ≠ tid) →
    placeAll solver.calendar req (buildDag req.tasks req.dependencies) pre
      (startState solver.calendar req) = .ok mid →
    ∀ a, finished a → ∃ b, mid.assignments.get? a.taskId = some b ∧ b.StaysAs a

/-- What the committed plans reserve for a task. -/
def Store.reservedFor (s : Store) (tid : UUID) : List DayAllocation :=
  ((s.committedAssignments.find? fun a => a.taskId = tid).map Assignment.allocations).getD []

/-- One day of an active person, the first that has room beside the load. -/
structure Assignment.FitsAfter (a : Assignment) (cal : WorkingCalendar) (req : PlanRequest)
    (load : List DayAllocation) : Prop where
  person : a.personId ∈ req.people.map Person.id
  start : a.startDate = fitDay cal (capacityOn req.people cal req.dayOverrides) load req.horizonStart
    a.personId a.hours
  end_ : a.endDate = a.startDate
  hours : ∀ p d, hoursOn a.allocations p d = hoursOn [⟨a.personId, a.startDate, a.hours⟩] p d

/-- In the solver's order finished tasks come first, and each of them is where
first fit puts it after those before it. -/
structure Store.FinishedFirst (s : Store) (solver : GreedySolver) (req : PlanRequest) : Prop where
  hours : ∀ a, s.Finished a → a.hours ≠ 0
  fits : ∀ order, solver.topologicalSort.run (buildDag req.tasks req.dependencies) = some order →
    ∀ pre post a, s.Finished a → order = pre ++ a.taskId :: post →
    a.FitsAfter solver.calendar req (pre.flatMap s.reservedFor)
  before : ∀ order, solver.topologicalSort.run (buildDag req.tasks req.dependencies) = some order →
    ∀ pre tid post, order = pre ++ tid :: post → (∀ a, s.Finished a → a.taskId ≠ tid) →
    ∀ a, s.Finished a → a.taskId ∈ pre

section Resolve

variable {s : Store} {today : Date} {req : PlanRequest} {solver : GreedySolver}

theorem Store.reservedFor_eq (hs : s.WF) {a : Assignment} (ha : a ∈ s.committedAssignments) :
    s.reservedFor a.taskId = a.allocations := by
  have hfound : (s.committedAssignments.find? fun b => b.taskId = a.taskId).isSome :=
    List.find?_isSome.mpr ⟨a, ha, by simp⟩
  obtain ⟨b, hb⟩ := Option.isSome_iff_exists.mp hfound
  have hba : b.taskId = a.taskId := by simpa using List.find?_some hb
  obtain rfl := hs.committed_inj (List.mem_of_find?_eq_some hb) ha hba
  rw [reservedFor, hb]
  rfl

theorem Store.rebuiltTask_mem (h : s.replanRequest today = some req) {a : Assignment}
    (ha : a ∈ s.committedAssignments) (hh : a.hours ≠ 0) : s.rebuiltTask a ∈ req.tasks := by
  obtain ⟨-, rfl⟩ := replanRequest_some h
  exact List.mem_map_of_mem (List.mem_filter.mpr ⟨ha, decide_eq_true hh⟩)

theorem Store.hours_of_rebuilt (hs : s.WF) (h : s.replanRequest today = some req) {a : Assignment}
    (ha : a ∈ s.committedAssignments) (ht : a.taskId ∈ req.tasks.map Task.id) : a.hours ≠ 0 := by
  obtain ⟨-, rfl⟩ := replanRequest_some h
  rw [List.map_map] at ht
  obtain ⟨b, hb, he⟩ := List.mem_map.mp ht
  obtain ⟨hb, hne⟩ := List.mem_filter.mp hb
  obtain rfl := hs.committed_inj hb ha he
  exact of_decide_eq_true hne

theorem hoursOn_flatMap_congr {α : Type} {l : List α} {f g : α → List DayAllocation} {p : UUID}
    {d : Date} (h : ∀ x ∈ l, hoursOn (f x) p d = hoursOn (g x) p d) :
    hoursOn (l.flatMap f) p d = hoursOn (l.flatMap g) p d := by
  induction l with
  | nil => rfl
  | cons x l ih =>
    simp only [List.flatMap_cons, hoursOn_append, h x List.mem_cons_self,
      ih fun y hy => h y (List.mem_cons_of_mem _ hy)]

/-- A run of the solver over the rebuilt request. -/
structure Resolve (solver : GreedySolver) (req : PlanRequest) (order : List UUID)
    (st : PlanState) : Prop where
  run : solver.topologicalSort.run (buildDag req.tasks req.dependencies) = some order
  nodup : order.Nodup
  mem_iff : ∀ tid, tid ∈ order ↔ tid ∈ req.tasks.map Task.id
  placed : placeAll solver.calendar req (buildDag req.tasks req.dependencies) order
    (startState solver.calendar req) = .ok st

variable {order : List UUID} {st : PlanState}

/-- The load before a turn, when everything placed before stays as it was committed. -/
theorem load_of_stays (hs : s.Grown) {pre : List UUID} {mid : PlanState}
    (hb : Booked solver.calendar req pre mid)
    (hkeys : ∀ tid ∈ pre, tid ∈ mid.assignments.keys)
    (hkeep : ∀ tid a, mid.assignments.get? tid = some a → st.assignments.get? tid = some a)
    (hstays : ∀ tid ∈ pre, ∃ a b, s.Finished a ∧ a.taskId = tid ∧ st.assignments.get? tid = some b ∧
      b.StaysAs a) (p : UUID) (d : Date) :
    hoursOn (mid.assignments.values.flatMap Assignment.allocations) p d =
      hoursOn (pre.flatMap s.reservedFor) p d := by
  have hvalues : mid.assignments.values.flatMap Assignment.allocations =
      pre.flatMap fun tid => ((mid.assignments.get? tid).map Assignment.allocations).getD [] := by
    rw [hb.values_eq]
    generalize mid.assignments.get? = f
    clear hb hkeys hkeep hstays
    induction pre with
    | nil => rfl
    | cons tid pre ih => cases h : f tid <;> simp [h, ih]
  rw [hvalues]
  refine hoursOn_flatMap_congr fun tid htid => ?_
  obtain ⟨a, b, ha, rfl, hst, hsame⟩ := hstays tid htid
  obtain ⟨c, hc⟩ := Option.isSome_iff_exists.mp (OrdDict.mem_keys.mp (hkeys _ htid))
  obtain rfl := Option.some.inj ((hkeep _ c hc).symm.trans hst)
  rw [hc, Store.reservedFor_eq hs.wf ha.1]
  exact hsame.hours p d

theorem mid_keys (hplain : req.Plain) {pre post : List UUID} {mid : PlanState} {tid : UUID}
    (hr : Resolve solver req (pre ++ tid :: post) st)
    (hpre : placeAll solver.calendar req (buildDag req.tasks req.dependencies) pre
      (startState solver.calendar req) = .ok mid) : ∀ u ∈ pre, u ∈ mid.assignments.keys := by
  intro u hu
  obtain ⟨t, ht, rfl⟩ := List.mem_map.mp ((hr.mem_iff u).mp (List.mem_append_left _ hu))
  exact placeAll_places hu hpre (tasksById_get? hplain.ids ht)

/-- Everything before a finished task is finished, when finished tasks come first. -/
theorem finished_before (hr : Resolve solver req order st)
    (hbefore : ∀ pre tid post, order = pre ++ tid :: post → (∀ a, s.Finished a → a.taskId ≠ tid) →
      ∀ a, s.Finished a → a.taskId ∈ pre) {pre post : List UUID} {a : Assignment} (ha : s.Finished a)
    (hsplit : order = pre ++ a.taskId :: post) {tid : UUID} (htid : tid ∈ pre) :
    ∃ b, s.Finished b ∧ b.taskId = tid := by
  by_contra hno
  obtain ⟨before, after, rfl⟩ := List.append_of_mem htid
  have hm := hbefore before tid (after ++ a.taskId :: post) (by simp [hsplit])
    (fun b hb he => hno ⟨b, hb, he⟩) a ha
  have hnodup := hr.nodup
  rw [hsplit, List.nodup_append] at hnodup
  exact hnodup.2.2 _ (List.mem_append_left _ hm) _ List.mem_cons_self rfl

/-- Finished work that stays is where first fit puts it. -/
theorem fits_of_stays (hs : s.Grown) (h : s.replanRequest today = some req)
    (hr : Resolve solver req order st) {pre post : List UUID} {a : Assignment}
    (ha : s.Finished a) (hne : a.hours ≠ 0) (hsplit : order = pre ++ a.taskId :: post)
    (hstays : ∀ tid ∈ pre, ∃ a b, s.Finished a ∧ a.taskId = tid ∧ st.assignments.get? tid = some b ∧
      b.StaysAs a) {b : Assignment} (hb : st.assignments.get? a.taskId = some b)
    (hsame : b.StaysAs a) :
    a.FitsAfter solver.calendar req (pre.flatMap s.reservedFor) := by
  have hplain := hs.replan_plain h
  obtain rfl := hsplit
  obtain ⟨mid, person, day, hbooked, hpre, hkeep, hallowed, hday, hst⟩ :=
    plain_turn (t := s.rebuiltTask a) hplain hr.nodup hr.placed (Store.rebuiltTask_mem h ha.1 hne)
  obtain rfl := Option.some.inj (hst.symm.trans hb)
  have hload := load_of_stays hs hbooked (mid_keys hplain hr hpre) hkeep hstays
  have hperson : person.id = a.personId := hsame.person
  have hstart : day = a.startDate := hsame.start
  refine ⟨hperson ▸ List.mem_map_of_mem (allowedPeople_subset hallowed), ?_, ?_, fun p d => ?_⟩
  · rw [← hstart, hday, hperson]
    exact fitDay_congr hload _ _ _
  · exact hsame.end_.symm.trans hstart
  · rw [← hsame.hours p d, hperson, hstart]
    rfl

/-- Where first fit puts a finished task, when what was placed before it stays. -/
theorem stays_of_fits (hs : s.Grown) (h : s.replanRequest today = some req)
    (hr : Resolve solver req order st) {pre post : List UUID} {a : Assignment}
    (ha : s.Finished a) (hne : a.hours ≠ 0) (hsplit : order = pre ++ a.taskId :: post)
    (hstays : ∀ tid ∈ pre, ∃ a b, s.Finished a ∧ a.taskId = tid ∧ st.assignments.get? tid = some b ∧
      b.StaysAs a) (hfits : a.FitsAfter solver.calendar req (pre.flatMap s.reservedFor)) :
    ∃ b, st.assignments.get? a.taskId = some b ∧ b.StaysAs a := by
  have hplain := hs.replan_plain h
  obtain rfl := hsplit
  obtain ⟨mid, person, day, hbooked, hpre, hkeep, hallowed, hday, hst⟩ :=
    plain_turn (t := s.rebuiltTask a) hplain hr.nodup hr.placed (Store.rebuiltTask_mem h ha.1 hne)
  have hload := load_of_stays hs hbooked (mid_keys hplain hr hpre) hkeep hstays
  have hperson : person.id = a.personId := allowedPeople_bound hfits.person rfl hallowed
  have hstart : day = a.startDate := by
    rw [hday, hfits.start, hperson]
    exact fitDay_congr hload _ _ _
  refine ⟨_, hst, rfl, hperson, hstart, hstart.trans hfits.end_.symm, fun p d => ?_⟩
  rw [hfits.hours p d, hperson, hstart]
  rfl

theorem FinishedKept.finishedFirst (hs : s.Grown) (h : s.replanRequest today = some req)
    (hr : Resolve solver req order st)
    (hkept : FinishedKept solver req (planResult req order st) s.Finished) :
    s.FinishedFirst solver req := by
  have hplain := hs.replan_plain h
  have hplaced : ∀ a, s.Finished a → ∃ b, st.assignments.get? a.taskId = some b ∧ b.StaysAs a := by
    intro a ha
    obtain ⟨b, hb, hsame⟩ := hkept.kept a ha
    have hfiled := filed_of_mem_planResult hr.placed hb
    exact ⟨b, hsame.taskId ▸ hfiled, hsame⟩
  have hours : ∀ a, s.Finished a → a.hours ≠ 0 := by
    intro a ha
    obtain ⟨b, hb, -⟩ := hplaced a ha
    exact Store.hours_of_rebuilt hs.wf h ha.1
      (placed_mem hr.placed (OrdDict.mem_keys.mpr (by simp [hb])))
  have before : ∀ pre tid post, order = pre ++ tid :: post → (∀ a, s.Finished a → a.taskId ≠ tid) →
      ∀ a, s.Finished a → a.taskId ∈ pre := by
    intro pre tid post hsplit hother a ha
    have hnodup := hr.nodup
    have hplaced := hr.placed
    rw [hsplit] at hnodup hplaced
    obtain ⟨mid, hpre, -⟩ := placeAll_append hplaced
    obtain ⟨b, hb, -⟩ := hkept.first order hr.run pre tid post mid hsplit hother hpre a ha
    have hbooked := booked_of_placeAll hplain.unpinned (List.nodup_append.mp hnodup).1 hpre
    exact hbooked.keys_subset _ (OrdDict.mem_keys.mpr (by simp [hb]))
  refine ⟨hours, fun order' hrun pre post a ha hsplit => ?_, fun order' hrun => ?_⟩
  · obtain rfl := Option.some.inj (hrun.symm.trans hr.run)
    obtain ⟨b, hb, hsame⟩ := hplaced a ha
    refine fits_of_stays hs h hr ha (hours a ha) hsplit (fun tid htid => ?_) hb hsame
    obtain ⟨c, hc, rfl⟩ := finished_before hr before ha hsplit htid
    obtain ⟨d, hd, hcd⟩ := hplaced c hc
    exact ⟨c, d, hc, rfl, hd, hcd⟩
  · obtain rfl := Option.some.inj (hrun.symm.trans hr.run)
    exact before

theorem Store.FinishedFirst.placed (hs : s.Grown) (h : s.replanRequest today = some req)
    (hr : Resolve solver req order st) (hfirst : s.FinishedFirst solver req) {n : Nat} :
    ∀ {pre post : List UUID} {a : Assignment}, pre.length = n → s.Finished a →
      order = pre ++ a.taskId :: post →
      ∃ b, st.assignments.get? a.taskId = some b ∧ b.StaysAs a := by
  induction n using Nat.strong_induction_on with
  | _ n ih =>
    intro pre post a hlen ha hsplit
    refine stays_of_fits hs h hr ha (hfirst.hours a ha) hsplit (fun tid htid => ?_)
      (hfirst.fits order hr.run pre post a ha hsplit)
    obtain ⟨c, hc, rfl⟩ := finished_before hr (hfirst.before order hr.run) ha hsplit htid
    obtain ⟨pre', mid, rfl⟩ := List.append_of_mem htid
    have hlt : pre'.length < n := by
      rw [← hlen, List.length_append, List.length_cons]
      omega
    have hsplit' : order = pre' ++ c.taskId :: (mid ++ a.taskId :: post) := by simp [hsplit]
    obtain ⟨d, hd, hcd⟩ := ih _ hlt rfl hc hsplit'
    exact ⟨c, d, hc, rfl, hd, hcd⟩

theorem Store.FinishedFirst.finishedKept (hs : s.Grown) (h : s.replanRequest today = some req)
    (hr : Resolve solver req order st) (hfirst : s.FinishedFirst solver req) :
    FinishedKept solver req (planResult req order st) s.Finished := by
  have hplain := hs.replan_plain h
  have hmem : ∀ a, s.Finished a → a.taskId ∈ order := fun a ha =>
    (hr.mem_iff _).mpr (List.mem_map_of_mem (Store.rebuiltTask_mem h ha.1 (hfirst.hours a ha)))
  have hplaced : ∀ a, s.Finished a → ∃ b, st.assignments.get? a.taskId = some b ∧ b.StaysAs a := by
    intro a ha
    obtain ⟨pre, post, hsplit⟩ := List.append_of_mem (hmem a ha)
    exact hfirst.placed hs h hr rfl ha hsplit
  refine ⟨fun a ha => ?_, fun order' hrun pre tid post mid hsplit hother hpre a ha => ?_⟩
  · obtain ⟨b, hb, hsame⟩ := hplaced a ha
    exact ⟨b, mem_planResult.mpr ⟨_, hmem a ha, hb⟩, hsame⟩
  · obtain rfl := Option.some.inj (hrun.symm.trans hr.run)
    have hin := hfirst.before order' hr.run pre tid post hsplit hother a ha
    obtain ⟨b, hb, hsame⟩ := hplaced a ha
    obtain ⟨c, hc⟩ := Option.isSome_iff_exists.mp
      (OrdDict.mem_keys.mp (mid_keys hplain (hsplit ▸ hr) hpre _ hin))
    have hplacedAll := hr.placed
    rw [hsplit] at hplacedAll
    obtain ⟨mid', hpre', hrest⟩ := placeAll_append hplacedAll
    obtain rfl := Except.ok.inj (hpre.symm.trans hpre')
    obtain rfl := Option.some.inj ((placeAll_keeps hc hrest).symm.trans hb)
    exact ⟨_, hc, hsame⟩

end Resolve

/-- A shooting is proposed, confirmed and marked done. -/
def shootingDone : List Act :=
  [.addProject .onWeekdays { title := "Ролик", templateCode := "lite" } none anna shooting 1 [] [] none,
    .confirm none 6 none, .markTaskDone 5 none true "done"]

end Planner
