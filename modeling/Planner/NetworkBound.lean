import Planner.TurnLoad

/-! The critical path against the schedule. Along the order every task starts no
earlier than the network lets it, and no later where nobody is contended for. -/

namespace Planner

theorem linkStart_eq (cal : WorkingCalendar) (e : Link) (a : Assignment) : linkStart cal e a =
    workday cal (if e.linkType = .FS then cal.nextWorkingDay a.endDate else a.startDate) e.wait := by
  unfold linkStart Link.wait
  dsimp only
  split
  · refine (nthWorkingDay_eq_workday _ _).trans ?_
    congr 1
    simp only [PNat.mk_coe]
    omega
  · rename_i hlag
    have hwait : (e.lag - 1).toNat = 0 := by omega
    rw [hwait]
    rfl

/-- The start is the horizon's, or one of the links decides. -/
theorem earliestStart_cases (task : Task) (graph : Dag) (assignments : OrdDict UUID Assignment) (start : Date)
    (cal : WorkingCalendar) : earliestStart task graph assignments start cal = start ∨
      ∃ u a e, assignments.get? u = some a ∧ graph.label? u task.id = some e ∧
        earliestStart task graph assignments start cal = linkStart cal e a := by
  have key : ∀ (deps : List UUID) (est : Date), deps.foldl (raiseStart cal graph assignments task.id) est = est ∨
      ∃ u a e, assignments.get? u = some a ∧ graph.label? u task.id = some e ∧
        deps.foldl (raiseStart cal graph assignments task.id) est = linkStart cal e a := by
    intro deps
    induction deps with
    | nil => exact fun _ => Or.inl rfl
    | cons u deps ih =>
      intro est
      rw [List.foldl_cons]
      rcases ih (raiseStart cal graph assignments task.id est u) with h | h
      · rw [h]
        unfold raiseStart
        split
        · rename_i a e ha he
          dsimp only
          split
          · exact Or.inr ⟨u, a, e, ha, he, rfl⟩
          · exact Or.inl rfl
        · exact Or.inl rfl
      · exact Or.inr h
  exact key _ start

section Passes

variable {cal : WorkingCalendar} {req : PlanRequest} {graph : Dag} {order : List UUID} {st : PlanState}

/-- The earliest day of each task, as working days from the start. -/
def networkStart (req : PlanRequest) (graph : Dag) (order : List UUID) : UUID → Nat :=
  LongestPath.starts graph.predecessors (networkCost req graph) order

/-- No earlier than the network lets it. -/
def NotBefore (cal : WorkingCalendar) (req : PlanRequest) (graph : Dag) (order : List UUID)
    (t : UUID) (a : Assignment) : Prop :=
  workday cal req.horizonStart (networkStart req graph order t) ≤ a.startDate ∧
    workday cal req.horizonStart (networkStart req graph order t + networkDays req t - 1) ≤ a.endDate

/-- As early as the network lets it. -/
def OnTime (cal : WorkingCalendar) (req : PlanRequest) (graph : Dag) (order : List UUID)
    (t : UUID) (a : Assignment) : Prop :=
  a.startDate = workday cal req.horizonStart (networkStart req graph order t) ∧
    a.endDate = workday cal req.horizonStart (networkStart req graph order t + networkDays req t - 1)

theorem networkDays_of_task {t : UUID} {task : Task} (h : (tasksById req).get? t = some task) :
    networkDays req t = fewestDays task (allowedPeople req task) := by
  rw [networkDays, h, Option.elim_some]

theorem networkCost_of_link {u t : UUID} {e : Link} (h : graph.label? u t = some e) :
    networkCost req graph u t = (if e.linkType = .FS then networkDays req u else 0) + e.wait := by
  simp only [networkCost, h]

theorem NotBefore.linkStart {u t : UUID} {a : Assignment} {e : Link} (h : NotBefore cal req graph order u a)
    (hdays : 0 < networkDays req u) (he : graph.label? u t = some e) :
    workday cal req.horizonStart (networkStart req graph order u + networkCost req graph u t) ≤
      linkStart cal e a := by
  rw [linkStart_eq, networkCost_of_link he, ← Nat.add_assoc, ← workday_add]
  refine workday_mono_left ?_ _
  split
  · obtain ⟨n, hn⟩ := Nat.exists_eq_add_one.mpr hdays
    have hend := h.2
    rw [hn] at hend ⊢
    exact (workday_succ _ _).le.trans (nextWorkingDay_mono hend)
  · exact h.1

theorem OnTime.linkStart {u t : UUID} {a : Assignment} {e : Link} (h : OnTime cal req graph order u a)
    (hdays : 0 < networkDays req u) (he : graph.label? u t = some e) :
    Planner.linkStart cal e a =
      workday cal req.horizonStart (networkStart req graph order u + networkCost req graph u t) := by
  rw [linkStart_eq, networkCost_of_link he, ← Nat.add_assoc, ← workday_add]
  congr 1
  split
  · obtain ⟨n, hn⟩ := Nat.exists_eq_add_one.mpr hdays
    rw [h.2, hn]
    exact (workday_succ _ _).symm
  · exact h.1

theorem OnTime.notBefore {t : UUID} {a : Assignment} (h : OnTime cal req graph order t a) :
    NotBefore cal req graph order t a := ⟨h.1.ge, h.2.ge⟩

variable {task : Task} {assignments : OrdDict UUID Assignment}

theorem networkStart_le (ho : LongestPath.Ordered graph.predecessors order) (ht : task.id ∈ order)
    (hdays : ∀ u ∈ order, 0 < networkDays req u)
    (hpreds : ∀ u ∈ graph.predecessors task.id, u ∈ order ∧ ∃ a, assignments.get? u = some a ∧
      NotBefore cal req graph order u a) :
    workday cal req.horizonStart (networkStart req graph order task.id) ≤
      firstWorkingDay cal (earliestStart task graph assignments req.horizonStart cal) := by
  rw [networkStart, LongestPath.starts_eq ho ht]
  by_cases hne : graph.predecessors task.id = []
  · rw [hne]
    exact firstWorkingDay_mono (horizonStart_le_earliestStart task _)
  · obtain ⟨u, hu, hpeak⟩ := ForwardPass.peak_mem
      (fun u => networkStart req graph order u + networkCost req graph u task.id) hne
    obtain ⟨hord, a, ha, hnot⟩ := hpreds u hu
    obtain ⟨e, he⟩ := Option.isSome_iff_exists.mp (OrdDict.mem_keys.mp (EdgeGraph.mem_predecessors.mp hu))
    refine (congrArg _ hpeak).ge.trans ((hnot.linkStart (hdays u hord) he).trans ?_)
    exact (linkStart_le_earliestStart ha he _).trans (le_firstWorkingDay _)

theorem le_networkStart (ho : LongestPath.Ordered graph.predecessors order) (ht : task.id ∈ order)
    (hdays : ∀ u ∈ order, 0 < networkDays req u)
    (hpreds : ∀ u ∈ graph.predecessors task.id, u ∈ order ∧
      ∀ a, assignments.get? u = some a → OnTime cal req graph order u a) :
    firstWorkingDay cal (earliestStart task graph assignments req.horizonStart cal) ≤
      workday cal req.horizonStart (networkStart req graph order task.id) := by
  refine firstWorkingDay_le ?_ (workday_working _ _)
  rcases earliestStart_cases task graph assignments req.horizonStart cal with h | ⟨u, a, e, ha, he, h⟩
  · exact h.le.trans (le_workday _ _)
  · have hu : u ∈ graph.predecessors task.id :=
      EdgeGraph.mem_predecessors.mpr (OrdDict.mem_keys.mpr (Option.isSome_iff_exists.mpr ⟨e, he⟩))
    obtain ⟨hord, hontime⟩ := hpreds u hu
    rw [h, (hontime a ha).linkStart (hdays u hord) he, workday_le_iff]
    exact LongestPath.step_le ho ht hu

end Passes

section Schedule

variable {cal : WorkingCalendar} {req : PlanRequest} {order : List UUID} {st : PlanState}

/-- Working days until the last task is over. -/
def networkEnd (req : PlanRequest) (order : List UUID) : Nat :=
  ForwardPass.peak (fun t => networkStart req (buildDag req.tasks req.dependencies) order t + networkDays req t) order

def chainEnd (req : PlanRequest) (order : List UUID) : Nat :=
  ForwardPass.peak (fun t => LongestPath.starts (buildDag req.tasks req.dependencies).predecessors
    (fun u _ => chainDays req u) order t + chainDays req t) order

/-- A pass of the loop over a request that stays within its tasks. -/
structure Pass (cal : WorkingCalendar) (req : PlanRequest) (order : List UUID) (st : PlanState) : Prop where
  regular : req.Regular
  closed : req.Closed
  topological : (buildDag req.tasks req.dependencies).IsTopologicalOrder order
  run : placeAll cal req (buildDag req.tasks req.dependencies) order (startState cal req) = .ok st
  fits : neverDumps cal req (buildDag req.tasks req.dependencies) order (startState cal req) = true

namespace Pass

theorem ordered (h : Pass cal req order st) :
    LongestPath.Ordered (buildDag req.tasks req.dependencies).predecessors order :=
  ordered_of_topological h.topological

theorem task (h : Pass cal req order st) {t : UUID} (ht : t ∈ order) :
    ∃ task ∈ req.tasks, task.id = t ∧ (tasksById req).get? t = some task := by
  obtain ⟨task, htask⟩ := Option.isSome_iff_exists.mp (OrdDict.mem_keys.mp
    (mem_keys_of_order h.closed h.topological t ht))
  obtain ⟨hmem, hid⟩ := mem_of_tasksById htask
  exact ⟨task, hmem, hid, htask⟩

theorem days_pos (h : Pass cal req order st) : ∀ u ∈ order, 0 < networkDays req u := by
  intro u hu
  obtain ⟨task, -, -, htask⟩ := h.task hu
  exact networkDays_of_task htask ▸ fewestDays_pos task _

theorem filed (h : Pass cal req order st) {t : UUID} (ht : t ∈ order) : ∃ a, st.assignments.get? t = some a := by
  obtain ⟨task, -, -, htask⟩ := h.task ht
  exact Option.isSome_iff_exists.mp (OrdDict.mem_keys.mp (placeAll_places ht h.run htask))

/-- What a task depends on was filed before its turn, and stays. -/
theorem preds_filed (h : Pass cal req order st) {pre post : List UUID} {t : UUID} {mid : PlanState}
    (he : order = pre ++ t :: post)
    (hpre : placeAll cal req (buildDag req.tasks req.dependencies) pre (startState cal req) = .ok mid)
    (hkeep : ∀ k a, mid.assignments.get? k = some a → st.assignments.get? k = some a) :
    ∀ u ∈ (buildDag req.tasks req.dependencies).predecessors t, u ∈ pre ∧ u ∈ order ∧
      ∃ a, mid.assignments.get? u = some a ∧ st.assignments.get? u = some a := by
  intro u hu
  have hup := h.ordered.before pre t post he u hu
  have huo : u ∈ order := by simp [he, hup]
  obtain ⟨task, -, -, htask⟩ := h.task huo
  obtain ⟨a, ha⟩ := Option.isSome_iff_exists.mp (OrdDict.mem_keys.mp (placeAll_places hup hpre htask))
  exact ⟨hup, huo, a, ha, hkeep u a ha⟩

/-- No task is ahead of the network. -/
theorem notBefore (h : Pass cal req order st) (hload : ∀ al ∈ req.existingAllocations, 0 ≤ al.hours) :
    ∀ t ∈ order, ∀ a, st.assignments.get? t = some a →
      NotBefore cal req (buildDag req.tasks req.dependencies) order t a := by
  refine ForwardPass.induction fun pre t post he ih a ha => ?_
  have ht : t ∈ order := by simp [he]
  obtain ⟨task, hmem, rfl, htask⟩ := h.task ht
  obtain ⟨mid, person, p, hpre, hb, hkeep, hpl, hfits, hself⟩ :=
    turn_in_order h.regular.unpinned h.topological.nodup he htask h.run h.fits
  have hstart := networkStart_le h.ordered ht h.days_pos fun u hu => by
    obtain ⟨hup, huo, b, hmid, hst⟩ := h.preds_filed he hpre hkeep u hu
    exact ⟨huo, b, hmid, ih u hup b hst⟩
  have hend := hpl.late (h.regular.positive task hmem) (h.regular.able task hmem)
    (fun _ q hq d hd => hb.free_le h.regular hload hpre hmem hq hd) hfits
  obtain rfl := Option.some.inj (hself.symm.trans ha)
  refine ⟨hstart.trans hpl.start_ge, ?_⟩
  have hdays := fewestDays_pos task (allowedPeople req task)
  rw [networkDays_of_task htask, Nat.add_sub_assoc hdays, ← workday_add]
  exact (workday_mono_left hstart _).trans ((workday_first _).le.trans hend)

/-- Where nobody is contended for, no task is behind the network either. -/
theorem onTime (h : Pass cal req order st) (hown : req.Uncontended) : ∀ t ∈ order, ∀ a,
    st.assignments.get? t = some a → OnTime cal req (buildDag req.tasks req.dependencies) order t a := by
  refine ForwardPass.induction fun pre t post he ih a ha => ?_
  have ht : t ∈ order := by simp [he]
  obtain ⟨task, hmem, rfl, htask⟩ := h.task ht
  obtain ⟨mid, person, p, hpre, hb, hkeep, hpl, hfits, hself⟩ :=
    turn_in_order h.regular.unpinned h.topological.nodup he htask h.run h.fits
  have hnew : task.id ∉ pre := fun hm =>
    (List.nodup_append.mp (he ▸ h.topological.nodup)).2.2 _ hm _ List.mem_cons_self rfl
  have hpreds := h.preds_filed he hpre hkeep
  have hstart : firstWorkingDay cal (earliestStart task (buildDag req.tasks req.dependencies)
      mid.assignments req.horizonStart cal) =
        workday cal req.horizonStart (networkStart req (buildDag req.tasks req.dependencies) order task.id) := by
    refine le_antisymm (le_networkStart h.ordered ht h.days_pos fun u hu => ?_)
      (networkStart_le h.ordered ht h.days_pos fun u hu => ?_)
    · obtain ⟨hup, huo, b, hmid, hst⟩ := hpreds u hu
      exact ⟨huo, fun c hc => ih u hup c (hkeep u c hc)⟩
    · obtain ⟨hup, huo, b, hmid, hst⟩ := hpreds u hu
      exact ⟨huo, b, hmid, (ih u hup b hst).notBefore⟩
  obtain ⟨hfirst, hlast⟩ := hpl.prompt (h.regular.positive task hmem) (h.regular.able task hmem)
    (fun hw q hq d hd => hb.free_eq h.regular hown hpre hmem hnew hw hq hd) hfits
  obtain rfl := Option.some.inj (hself.symm.trans ha)
  refine ⟨hfirst.trans hstart, ?_⟩
  have hdays := fewestDays_pos task (allowedPeople req task)
  rw [networkDays_of_task htask, Nat.add_sub_assoc hdays, ← workday_add, ← hstart, workday_first]
  exact hlast

theorem mem_order_iff (h : Pass cal req order st) {t : UUID} : t ∈ order ↔ t ∈ req.tasks.map Task.id :=
  ⟨fun ht => keys_tasksById.mp (mem_keys_of_order h.closed h.topological t ht),
    fun ht => (h.topological.mem_iff t).mpr (mem_nodes_buildDag ht)⟩

theorem isPath_iff (h : Pass cal req order st) {path : List UUID} : req.IsPath path ↔
    path.IsChain (fun u t => u ∈ (buildDag req.tasks req.dependencies).predecessors t) ∧ ∀ t ∈ path, t ∈ order :=
  and_congr_right fun _ => forall₂_congr fun _ _ => h.mem_order_iff.symm

theorem chainEnd_le_iff (h : Pass cal req order st) : chainEnd req order ≤ networkEnd req order ↔
    ∀ path, req.IsPath path → ∃ path', req.IsPath path' ∧ req.chainLength path ≤ req.networkLength path' := by
  simp only [h.isPath_iff, and_imp, and_assoc]
  exact LongestPath.peak_le_peak_iff h.ordered

theorem networkEnd_le_iff (h : Pass cal req order st) : networkEnd req order ≤ chainEnd req order ↔
    ∀ path, req.IsPath path → ∃ path', req.IsPath path' ∧ req.networkLength path ≤ req.chainLength path' := by
  simp only [h.isPath_iff, and_imp, and_assoc]
  exact LongestPath.peak_le_peak_iff h.ordered

theorem networkEnd_pos (h : Pass cal req order st) (hne : order ≠ []) : 0 < networkEnd req order :=
  ForwardPass.peak_pos hne fun t ht => Nat.add_pos_right _ (h.days_pos t ht)

theorem chainEnd_pos (h : Pass cal req order st) (hne : order ≠ []) : 0 < chainEnd req order := by
  refine ForwardPass.peak_pos hne fun t ht => Nat.add_pos_right _ ?_
  obtain ⟨task, -, -, htask⟩ := h.task ht
  rw [chainDays, htask, Option.elim_some]
  exact (durationDays task (peopleById req)).pos

theorem endDate_nil (h : Pass cal req order st) (hnil : order = []) : (planResult req order st).endDate = none := by
  subst hnil
  have hb := booked_of_placeAll h.regular.unpinned h.topological.nodup h.run
  have hvalues : st.assignments.values = [] := hb.values_eq
  simp [planResult, hvalues]

theorem exists_endDate (h : Pass cal req order st) (hload : ∀ al ∈ req.existingAllocations, 0 ≤ al.hours)
    (hne : order ≠ []) : ∃ d, (planResult req order st).endDate = some d ∧
      workday cal req.horizonStart (networkEnd req order - 1) ≤ d := by
  obtain ⟨t, ht, hpeak⟩ := ForwardPass.peak_mem (fun t =>
    networkStart req (buildDag req.tasks req.dependencies) order t + networkDays req t) hne
  obtain ⟨a, ha⟩ := h.filed ht
  have hmem : a.endDate ∈ st.assignments.values.map Assignment.endDate :=
    List.mem_map_of_mem (OrdDict.mem_values.mpr ⟨t, ha⟩)
  cases hmax : (st.assignments.values.map Assignment.endDate).max? with
  | none => simp [List.max?_eq_none_iff.mp hmax] at hmem
  | some d =>
    refine ⟨d, hmax, ?_⟩
    rw [networkEnd, ← hpeak]
    exact (h.notBefore hload t ht a ha).2.trans ((List.max?_eq_some_iff.mp hmax).2 _ hmem)

theorem endDate_le (h : Pass cal req order st) (hown : req.Uncontended) {d : Date}
    (hd : (planResult req order st).endDate = some d) :
    d ≤ workday cal req.horizonStart (networkEnd req order - 1) := by
  obtain ⟨a, ha, rfl⟩ := List.mem_map.mp (List.max?_eq_some_iff.mp hd).1
  obtain ⟨t, hta⟩ := OrdDict.mem_values.mp ha
  have hb := booked_of_placeAll h.regular.unpinned h.topological.nodup h.run
  have ht := hb.keys_subset t (OrdDict.mem_keys.mpr (by simp [hta]))
  rw [(h.onTime hown t ht a hta).2, workday_le_iff]
  exact Nat.sub_le_sub_right (ForwardPass.le_peak (f := fun t =>
    networkStart req (buildDag req.tasks req.dependencies) order t + networkDays req t) ht) 1

end Pass

end Schedule

end Planner
