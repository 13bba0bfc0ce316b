import Planner.Confirmation

/-! Double booking. A plan is solved against the load that was committed when it
was proposed, and becomes load itself when it is confirmed. -/

namespace Planner

/-- The tables, the loads that were read for proposals, and for every version
the load it was solved against. -/
structure Bookings where
  store : Store
  reads : List (List DayAllocation) := []
  basis : OrdDict UUID (List DayAllocation) := .empty

/-- Proposals and confirmations in any order, the load of a proposal being read
some time before. `Allowed` restricts the confirmations. -/
inductive BookingStep (solver : GreedySolver) (people : List Person) (overrides : List DayOverride)
    (Allowed : Bookings → UUID → Prop) : Bookings → Bookings → Prop
  | read (b : Bookings) :
      BookingStep solver people overrides Allowed b { b with reads := b.store.committedLoad :: b.reads }
  | propose {b : Bookings} {intent : AddProjectIntent} {actor : Option PersonRecord}
      {template : ProjectTemplate} {today : Date} {existing : List DayAllocation}
      {sink : Option ProjectSink} {result : AddProjectResult} {s' : Store} (hread : existing ∈ b.reads)
      (hrun : (addProject solver intent actor people template today existing overrides sink).run b.store =
        (.ok result, s')) :
      BookingStep solver people overrides Allowed b
        { b with store := s', basis := b.basis.insert result.planVersionId existing }
  | decline {b : Bookings} {intent : AddProjectIntent} {actor : Option PersonRecord}
      {template : ProjectTemplate} {today : Date} {existing : List DayAllocation}
      {sink : Option ProjectSink} {e : PlannerError} {s' : Store} (hread : existing ∈ b.reads)
      (hrun : (addProject solver intent actor people template today existing overrides sink).run b.store =
        (.error e, s')) :
      BookingStep solver people overrides Allowed b { b with store := s' }
  | confirm {b : Bookings} {sink : Option TaskSink} {v : UUID} {actor : Option PersonRecord}
      {r : Except PlannerError ConfirmResult} {s' : Store} (hallowed : Allowed b v)
      (hrun : (confirmPlan sink v actor).run b.store = (r, s')) :
      BookingStep solver people overrides Allowed b { b with store := s' }

abbrev BookingRun (solver : GreedySolver) (people : List Person) (overrides : List DayOverride)
    (Allowed : Bookings → UUID → Prop) : Bookings → Bookings → Prop :=
  Relation.ReflTransGen (BookingStep solver people overrides Allowed)

/-- What a plan saw as fitting still fits, or was overbooked without it. -/
def Timely (capacity : UUID → Date → Int) (b : Bookings) (v : UUID) : Prop :=
  ∀ pv basis, b.store.planVersions.get? v = some pv → pv.status = .proposed →
    b.basis.get? v = some basis → ∀ p d,
    (∃ al ∈ deserializeAllocations pv.payload, al.personId = p ∧ al.day = d) →
    hoursOn (basis ++ deserializeAllocations pv.payload) p d ≤ capacity p d →
    hoursOn (b.store.committedLoad ++ deserializeAllocations pv.payload) p d ≤ capacity p d ∨
      Overbooked capacity b.store.committedLoad p d

def Payload.ListsOverload (payload : Payload) (p : UUID) (d : Date) : Prop :=
  ∃ r ∈ payload.risks, r.ListsOverload p d

/-- Every overbooked day of a person is a risk of some committed plan. -/
def Store.ListsOverbooked (s : Store) (capacity : UUID → Date → Int) : Prop :=
  ∀ p d, Overbooked capacity s.committedLoad p d →
    ∃ payload ∈ s.committedPayloads, payload.ListsOverload p d

theorem Overbooked.perm {capacity : UUID → Date → Int} {as bs : List DayAllocation} {p : UUID}
    {d : Date} (h : Overbooked capacity as p d) (hperm : as.Perm bs) : Overbooked capacity bs p d := by
  obtain ⟨⟨al, hal, hp, hd⟩, hlt⟩ := h
  exact ⟨⟨al, hperm.subset hal, hp, hd⟩, hoursOn_perm hperm p d ▸ hlt⟩

/-- Every version lists what it overbooks on top of its basis. -/
structure BookingInv (capacity : UUID → Date → Int) (b : Bookings) : Prop where
  wf : b.store.WF
  basis : ∀ v pv, b.store.planVersions.get? v = some pv → ∃ basis, b.basis.get? v = some basis ∧
    ∀ p d, Overbooked capacity (basis ++ deserializeAllocations pv.payload) p d →
      pv.payload.ListsOverload p d
  listed : b.store.ListsOverbooked capacity

section Steps

variable {solver : GreedySolver} {people : List Person} {overrides : List DayOverride}

theorem Proposed.committedPayloads {intent : AddProjectIntent} {actor : Option PersonRecord}
    {template : ProjectTemplate} {today : Date} {existing : List DayAllocation} {s s' : Store}
    {result : AddProjectResult}
    (h : Proposed solver intent actor people template today existing overrides s result s')
    (hs : s.WF) : s'.committedPayloads = s.committedPayloads := by
  simp only [Store.committedPayloads, h.planVersions, OrdDict.values_insert_of_not_mem (h.version_new hs),
    List.filter_append, List.filter_cons, reduceCtorEq, decide_false, Bool.false_eq_true, if_false,
    List.filter_nil, List.append_nil]

theorem BookingInv.propose {b : Bookings} {intent : AddProjectIntent} {actor : Option PersonRecord}
    {template : ProjectTemplate} {today : Date} {existing : List DayAllocation}
    {result : AddProjectResult} {s' : Store}
    (h : BookingInv (capacityOn people solver.calendar overrides) b)
    (hp : Proposed solver intent actor people template today existing overrides b.store result s') :
    BookingInv (capacityOn people solver.calendar overrides)
      { b with store := s', basis := b.basis.insert result.planVersionId existing } := by
  have hpayloads := hp.committedPayloads h.wf
  refine ⟨hp.wf h.wf, fun v pv hv => ?_, fun p d hover => ?_⟩
  · dsimp only at hv ⊢
    rw [hp.planVersions] at hv
    by_cases hvr : v = result.planVersionId
    · subst hvr
      rw [OrdDict.get?_insert_self] at hv
      obtain rfl := Option.some.inj hv
      refine ⟨existing, OrdDict.get?_insert_self _ _ _, fun p d hover => ?_⟩
      obtain ⟨deps, hinst, hplan⟩ := hp.planned
      obtain ⟨r, hr, hl⟩ := plan_lists_overbooked (instantiate_unpinned hinst) hplan hover
      exact ⟨r, List.mem_of_mem_filter hr, hl⟩
    · rw [OrdDict.get?_insert_of_ne _ _ hvr] at hv
      obtain ⟨basis, hb, hlist⟩ := h.basis v pv hv
      exact ⟨basis, (OrdDict.get?_insert_of_ne _ _ hvr).trans hb, hlist⟩
  · dsimp only at hover ⊢
    rw [Store.committedLoad, hpayloads] at hover
    rw [hpayloads]
    exact h.listed p d hover

theorem BookingInv.decline {capacity : UUID → Date → Int} {b : Bookings} {s' : Store}
    (h : BookingInv capacity b) (ha : Abandoned b.store s') :
    BookingInv capacity { b with store := s' } := by
  have hpayloads : s'.committedPayloads = b.store.committedPayloads := by
    simp only [Store.committedPayloads, ha.planVersions]
  refine ⟨ha.wf h.wf, fun v pv hv => h.basis v pv (ha.planVersions ▸ hv), fun p d hover => ?_⟩
  dsimp only at hover ⊢
  rw [Store.committedLoad, hpayloads] at hover
  rw [hpayloads]
  exact h.listed p d hover

theorem BookingInv.confirm {capacity : UUID → Date → Int} {b : Bookings} {v : UUID} {s' : Store}
    (h : BookingInv capacity b) (htimely : Timely capacity b v) (hproposed : b.store.IsProposed v)
    (hc : Confirmed v b.store s') : BookingInv capacity { b with store := s' } := by
  obtain ⟨pv, hv, hp⟩ := hproposed
  have hpayloads := hc.committedPayloads hv hp
  obtain ⟨basis, hb, hlist⟩ := h.basis v pv hv
  have hload : s'.committedLoad.Perm (b.store.committedLoad ++ deserializeAllocations pv.payload) := by
    refine (hpayloads.flatMap_right _).trans ?_
    rw [List.flatMap_cons]
    exact List.perm_append_comm
  refine ⟨hc.wf h.wf, fun w pw hw => ?_, fun p d hover => ?_⟩
  · dsimp only at hw
    rw [hc.planVersions] at hw
    by_cases hwv : w = v
    · subst hwv
      rw [OrdDict.get?_modify_self, hv] at hw
      obtain rfl := Option.some.inj hw
      exact ⟨basis, hb, hlist⟩
    · rw [OrdDict.get?_modify_of_ne _ _ hwv] at hw
      exact h.basis w pw hw
  · have hover' := hover.perm hload
    have hold : ∀ payload ∈ b.store.committedPayloads, payload ∈ s'.committedPayloads := fun q hq =>
      hpayloads.symm.subset (List.mem_cons_of_mem _ hq)
    by_cases hal : ∃ al ∈ deserializeAllocations pv.payload, al.personId = p ∧ al.day = d
    · by_cases hfit : hoursOn (basis ++ deserializeAllocations pv.payload) p d ≤ capacity p d
      · rcases htimely pv basis hv hp hb p d hal hfit with hle | hbooked
        · exact absurd hover'.2 (not_lt.mpr hle)
        · obtain ⟨payload, hm, hl⟩ := h.listed p d hbooked
          exact ⟨payload, hold payload hm, hl⟩
      · obtain ⟨al, hm, hap, had⟩ := hal
        exact ⟨pv.payload, hpayloads.symm.subset List.mem_cons_self,
          hlist p d ⟨⟨al, List.mem_append_right _ hm, hap, had⟩, not_le.mp hfit⟩⟩
    · -- the plan does not touch this pair
      have hzero : hoursOn (deserializeAllocations pv.payload) p d = 0 :=
        hoursOn_eq_zero fun al hm hh => hal ⟨al, hm, hh⟩
      obtain ⟨⟨al, hm, hh⟩, hlt⟩ := hover'
      rw [hoursOn_append, hzero, Int.add_zero] at hlt
      have hm' := (List.mem_append.mp hm).resolve_right fun hm => hal ⟨al, hm, hh⟩
      obtain ⟨payload, hpm, hl⟩ := h.listed p d ⟨⟨al, hm', hh⟩, hlt⟩
      exact ⟨payload, hold payload hpm, hl⟩

theorem BookingInv.step {b b' : Bookings}
    (h : BookingInv (capacityOn people solver.calendar overrides) b)
    (hstep : BookingStep solver people overrides
      (Timely (capacityOn people solver.calendar overrides)) b b') :
    BookingInv (capacityOn people solver.calendar overrides) b' := by
  cases hstep with
  | read => exact ⟨h.wf, h.basis, h.listed⟩
  | propose _ hrun =>
    rcases addProject_cases hrun with ⟨e, he, -⟩ | ⟨result, hr, hp⟩
    · cases he
    · obtain rfl := Except.ok.inj hr
      exact h.propose hp
  | decline _ hrun =>
    rcases addProject_cases hrun with ⟨e, -, ha⟩ | ⟨result, hr, -⟩
    · exact h.decline ha
    · cases hr
  | confirm hallowed hrun =>
    rcases confirmPlan_cases hrun with ⟨-, rfl, -⟩ | ⟨hproposed, hc, -⟩
    · exact h
    · exact h.confirm hallowed hproposed hc

end Steps

/-- No silent double booking, as long as every plan is confirmed while what it
saw as fitting still fits. -/
theorem overbooked_listed (solver : GreedySolver) (people : List Person) (overrides : List DayOverride)
    (s₀ : Store) (hwf : s₀.WF) (hempty : s₀.planVersions = .empty) (b : Bookings)
    (hrun : BookingRun solver people overrides
      (Timely (capacityOn people solver.calendar overrides)) ⟨s₀, [], .empty⟩ b) :
    b.store.ListsOverbooked (capacityOn people solver.calendar overrides) := by
  have hstart : BookingInv (capacityOn people solver.calendar overrides) ⟨s₀, [], .empty⟩ := by
    refine ⟨hwf, fun v pv hv => ?_, ?_⟩
    · rw [hempty] at hv
      cases hv
    · rintro p d ⟨⟨al, hal, -⟩, -⟩
      have hnone : s₀.committedLoad = [] := by
        simp [Store.committedLoad, Store.committedPayloads, hempty]
      rw [hnone] at hal
      cases hal
  have hinv : BookingInv (capacityOn people solver.calendar overrides) b := by
    induction hrun with
    | refl => exact hstart
    | tail _ hstep ih => exact ih.step hstep
  exact hinv.listed

/-- Anna, and a template with one day of work for her. -/
def shootingStore : Store where
  people := OrdDict.empty.insert 1 { name := "Анна" }
  templates := OrdDict.empty.insert 2 "lite"
  templateTasks := OrdDict.empty.insert 3
    { templateId := 2, ord := 1, name := "Съёмка", durationHours := 8 }
  templateTaskAssignees := OrdDict.empty.insert (3, 1) { strictness := .A }
  nextId := 4

def shooting : ProjectTemplate := ⟨"lite", [{
  ord := 1, name := "Съёмка", durationHours := 8, allowedPersonIds := [1] }]⟩

def anna : List Person := [{ id := 1, name := "Анна" }]

section Shooting

variable {Allowed : Bookings → UUID → Prop}

theorem propose_shooting {b : Bookings} {result : AddProjectResult} {s' : Store} (hread : [] ∈ b.reads)
    (hrun : (addProject .onWeekdays { title := "Ролик", templateCode := "lite" } none anna shooting 1 []
      [] none).run b.store = (.ok result, s')) :
    BookingStep .onWeekdays anna [] Allowed b
      { b with store := s', basis := b.basis.insert result.planVersionId [] } := .propose hread hrun

theorem confirm_shooting {b : Bookings} (v : UUID) {result : ConfirmResult} {s' : Store}
    (hallowed : Allowed b v) (hrun : (confirmPlan none v none).run b.store = (.ok result, s')) :
    BookingStep .onWeekdays anna [] Allowed b { b with store := s' } := .confirm hallowed hrun

theorem read_shooting (b : Bookings) :
    BookingStep .onWeekdays anna [] Allowed b { b with reads := b.store.committedLoad :: b.reads } :=
  .read b

end Shooting

theorem overbooked_listed_shooting : ∃ b : Bookings, b.store.committedLoad = [⟨1, 1, 8⟩] ∧
    b.store.ListsOverbooked (capacityOn anna GreedySolver.onWeekdays.calendar []) := by
  let timely := Timely (capacityOn anna GreedySolver.onWeekdays.calendar [])
  obtain ⟨b, hrun, hpv, hbasis, hconfirm⟩ : ∃ b, BookingRun .onWeekdays anna [] timely
      ⟨shootingStore, [], .empty⟩ b ∧ b.store.committedLoad = [] ∧ b.basis.get? 6 = some [] ∧
      ((confirmPlan none 6 none).run b.store).2.committedLoad = [⟨1, 1, 8⟩] :=
    ⟨_, (Relation.ReflTransGen.single (read_shooting ⟨shootingStore, [], .empty⟩)).tail
      (propose_shooting List.mem_cons_self rfl), rfl, rfl, rfl⟩
  have htimely : timely b 6 := by
    intro pv basis _ _ hb p d _ hfit
    obtain rfl := Option.some.inj (hbasis.symm.trans hb)
    exact Or.inl (hpv ▸ hfit)
  exact ⟨_, hconfirm, overbooked_listed .onWeekdays anna [] shootingStore (by constructor <;> decide) rfl _
    (hrun.tail (.confirm htimely (Prod.mk.eta (p := (confirmPlan none 6 none).run b.store)).symm))⟩

/-- Two proposals are solved against the same empty load, and both confirmed. -/
theorem stale_proposal_overbooks :
    ∃ b, BookingRun .onWeekdays anna [] (fun _ _ => True) ⟨shootingStore, [], .empty⟩ b ∧
      ¬ b.store.ListsOverbooked (capacityOn anna GreedySolver.onWeekdays.calendar []) := by
  obtain ⟨b, hrun, hload, hrisks⟩ : ∃ b : Bookings, BookingRun .onWeekdays anna [] (fun _ _ => True)
      ⟨shootingStore, [], .empty⟩ b ∧ b.store.committedLoad = [⟨1, 1, 8⟩, ⟨1, 1, 8⟩] ∧
      b.store.committedPayloads.flatMap Payload.risks = [] :=
    ⟨_, ((((Relation.ReflTransGen.single (read_shooting ⟨shootingStore, [], .empty⟩)).tail
      (propose_shooting List.mem_cons_self rfl)).tail (propose_shooting List.mem_cons_self rfl)).tail
      (confirm_shooting 6 trivial rfl)).tail (confirm_shooting 9 trivial rfl), rfl, rfl⟩
  refine ⟨b, hrun, fun h => ?_⟩
  have hover : Overbooked (capacityOn anna GreedySolver.onWeekdays.calendar []) b.store.committedLoad
      1 1 := by
    rw [hload]
    exact ⟨⟨_, List.mem_cons_self, rfl, rfl⟩, by decide⟩
  obtain ⟨payload, hp, r, hr, -⟩ := h 1 1 hover
  have hm : r ∈ b.store.committedPayloads.flatMap Payload.risks := List.mem_flatMap.mpr ⟨payload, hp, hr⟩
  rw [hrisks] at hm
  cases hm

end Planner
