import Planner.ActRuns
import Planner.Bookings

/-! Manual edits and the confirmation. An edit reaches the payload of a committed
version only, so what was edited before the confirmation is left behind. -/

namespace Planner

/-- Nobody but `p` works on the task. -/
def Assignment.CarriedBy (a : Assignment) (p : UUID) : Prop :=
  a.personId = p ∧ ∀ al ∈ a.allocations, al.personId = p

/-- The rows of the assignments table are those of the task's allocations. -/
structure Assignment.Recorded (a : Assignment) (rows : OrdDict (UUID × UUID) Int) : Prop where
  people : ∀ p, (a.taskId, p) ∈ rows.keys ↔ a.Involves p
  hours : a.allocations ≠ [] → ∀ p, rows.getD (a.taskId, p) 0 = a.hoursOf p

/-- The task has the person and the dates it was last given, and its rows agree. -/
structure Assignment.Carries (a : Assignment) (person : Option UUID) (start end_ : Option Date)
    (rows : OrdDict (UUID × UUID) Int) : Prop where
  who : ∀ p, person = some p → a.CarriedBy p
  starts : ∀ d, start = some d → a.startDate = d
  ends : ∀ d, end_ = some d → a.endDate = d
  recorded : a.Recorded rows

/-- After the run the version is committed, and every task of it carries its edits. -/
def Store.EditsSurvive (s : Store) (v : UUID) (acts : List Act) : Prop :=
  ∃ pv, (s.after acts).planVersions.get? v = some pv ∧ pv.status = .committed ∧
    ∀ a ∈ pv.payload.assignments, a.Carries (s.lastAssignee a.taskId acts)
      (s.lastStart a.taskId acts) (s.lastEnd a.taskId acts) (s.after acts).assignments

/-- A proposed assignment against the edits before and after its confirmation:
what was edited before and not again is what was proposed anyway, and a task
that is reassigned at all takes eight hours. -/
structure Assignment.Withstands (a : Assignment) (person person' : Option UUID)
    (start start' end_ end_' : Option Date) : Prop where
  who : person' = none → ∀ p, person = some p → a.CarriedBy p
  starts : start' = none → ∀ d, start = some d → a.startDate = d
  ends : end_' = none → ∀ d, end_ = some d → a.endDate = d
  hours : person'.or person ≠ none → a.allocations ≠ [] → a.hours = 8

namespace Assignment

variable {a : Assignment} {rows : OrdDict (UUID × UUID) Int}

theorem carriedBy_edited (a : Assignment) (q : UUID) (start end_ : Option Date) :
    (a.edited (some q) start end_).CarriedBy q := by
  refine ⟨rfl, fun al hal => ?_⟩
  obtain ⟨old, -, rfl⟩ := List.mem_map.mp hal
  rfl

theorem hours_edited (a : Assignment) (person : Option UUID) (start end_ : Option Date) :
    (a.edited person start end_).hours = a.hours := by
  simp [hours, edited, Function.comp_def]

theorem CarriedBy.involves {q : UUID} (h : a.CarriedBy q) (p : UUID) : a.Involves p ↔ p = q := by
  obtain ⟨hperson, hallocs⟩ := h
  unfold Involves
  split
  · rw [hperson]
  · rename_i hne
    constructor
    · rintro ⟨al, hal, rfl⟩
      exact hallocs al hal
    · rintro rfl
      obtain ⟨al, hal⟩ := List.exists_mem_of_ne_nil _ hne
      exact ⟨al, hal, hallocs al hal⟩

theorem CarriedBy.hoursOf {q : UUID} (h : a.CarriedBy q) (p : UUID) :
    a.hoursOf p = if p = q then a.hours else 0 := by
  by_cases hp : p = q
  · subst hp
    have hall : a.allocations.filter (fun al => al.personId = p) = a.allocations :=
      List.filter_eq_self.mpr fun al hal => decide_eq_true (h.2 al hal)
    rw [Assignment.hoursOf, hall, if_pos rfl, hours]
  · have hnone : a.allocations.filter (fun al => al.personId = p) = [] :=
      List.filter_eq_nil_iff.mpr fun al hal he => hp ((of_decide_eq_true he).symm.trans (h.2 al hal))
    rw [Assignment.hoursOf, hnone, if_neg hp]
    rfl

/-- A reassigned task with its one row of eight hours. -/
theorem CarriedBy.recorded_iff {q : UUID} (h : a.CarriedBy q)
    (hrows : ∀ p, rows.get? (a.taskId, p) = if p = q then some 8 else none) :
    a.Recorded rows ↔ (a.allocations ≠ [] → a.hours = 8) := by
  constructor
  · intro hrec hne
    have hh := hrec.hours hne q
    rw [OrdDict.getD, hrows, if_pos rfl, h.hoursOf, if_pos rfl] at hh
    exact hh.symm
  · refine fun hours => ⟨fun p => ?_, fun hne p => ?_⟩
    · rw [OrdDict.mem_keys, hrows, h.involves]
      split <;> simp [*]
    · rw [OrdDict.getD, hrows, h.hoursOf, hours hne]
      split <;> rfl

theorem recorded_hoursByPerson (t : Task) (hrows : ∀ p, rows.get? (a.taskId, p) =
    (hoursByPerson t a).get? p) : a.Recorded rows := by
  refine ⟨fun p => ?_, fun hne p => ?_⟩
  · rw [OrdDict.mem_keys, hrows, ← OrdDict.mem_keys, mem_keys_hoursByPerson]
  · rw [OrdDict.getD, hrows]
    exact getD_hoursByPerson t hne p

theorem hoursByPerson_edited_none (t : Task) (start end_ : Option Date) :
    hoursByPerson t (a.edited none start end_) = hoursByPerson t a := by
  simp [hoursByPerson, edited]

end Assignment

theorem or_eq_getD_iff {α : Type} {x : α} {old new : Option α} :
    (∀ d, new.or old = some d → new.getD x = d) ↔ (new = none → ∀ d, old = some d → x = d) := by
  cases new <;> simp

/-- A task that was edited after the confirmation, with the rows it has then. -/
theorem carries_iff {a : Assignment} {t : Task} {rows : OrdDict (UUID × UUID) Int}
    {person person' : Option UUID} {start start' end_ end_' : Option Date}
    (hrows : ∀ p, rows.get? (a.taskId, p) =
      rowAfter (person'.or person) p ((hoursByPerson t a).get? p)) :
    (a.edited person' start' end_').Carries (person'.or person) (start'.or start) (end_'.or end_) rows ↔
      a.Withstands person person' start start' end_ end_' := by
  have hwho : (∀ p, person'.or person = some p → (a.edited person' start' end_').CarriedBy p) ↔
      (person' = none → ∀ p, person = some p → a.CarriedBy p) := by
    cases person' with
    | none => simp [Assignment.CarriedBy, Assignment.edited]
    | some q =>
      refine iff_of_true (fun p hp => ?_) fun h => by cases h
      obtain rfl := Option.some.inj hp
      exact a.carriedBy_edited q start' end_'
  have hrec : (∀ p, person'.or person = some p → (a.edited person' start' end_').CarriedBy p) →
      ((a.edited person' start' end_').Recorded rows ↔
        (person'.or person ≠ none → a.allocations ≠ [] → a.hours = 8)) := by
    intro hcarried
    have hne : (a.edited person' start' end_').allocations ≠ [] ↔ a.allocations ≠ [] := by
      simp [Assignment.edited]
    cases hp : person'.or person with
    | none =>
      obtain ⟨rfl, rfl⟩ := Option.or_eq_none_iff.mp hp
      refine iff_of_true (Assignment.recorded_hoursByPerson t fun p => ?_) fun h => absurd rfl h
      rw [Assignment.hoursByPerson_edited_none]
      exact hrows p
    | some q =>
      have hrows' : ∀ p, rows.get? (a.taskId, p) = if p = q then some 8 else none := fun p => by
        rw [hrows, hp, rowAfter]
      rw [(hcarried q hp).recorded_iff hrows', Assignment.hours_edited, hne]
      simp
  constructor
  · rintro ⟨h₁, h₂, h₃, h₄⟩
    exact ⟨hwho.mp h₁, or_eq_getD_iff.mp h₂, or_eq_getD_iff.mp h₃, (hrec h₁).mp h₄⟩
  · rintro ⟨h₁, h₂, h₃, h₄⟩
    exact ⟨hwho.mpr h₁, or_eq_getD_iff.mpr h₂, or_eq_getD_iff.mpr h₃, (hrec (hwho.mpr h₁)).mpr h₄⟩

/-- The edits of a proposed plan survive its confirmation iff each of its tasks
withstands those made before against those made after. -/
theorem edits_survive_iff (solver : GreedySolver) (intent : AddProjectIntent)
    (actor confirmer : Option PersonRecord) (people : List Person) (template : ProjectTemplate)
    (today : Date) (existing : List DayAllocation) (overrides : List DayOverride)
    (sink : Option ProjectSink) (taskSink : Option TaskSink) (s s₁ : Store) (result : AddProjectResult)
    (early late : List Act) (hs : s.WF)
    (hadd : (addProject solver intent actor people template today existing overrides sink).run s =
      (.ok result, s₁))
    (hearly : ∀ act ∈ early, act.confirms result.planVersionId = false) :
    s₁.EditsSurvive result.planVersionId
        (early ++ .confirm taskSink result.planVersionId confirmer :: late) ↔
      ∀ a ∈ result.plan.assignments,
        let s₂ := s₁.after (early ++ [.confirm taskSink result.planVersionId confirmer])
        a.Withstands (s₁.lastAssignee a.taskId early) (s₂.lastAssignee a.taskId late)
          (s₁.lastStart a.taskId early) (s₂.lastStart a.taskId late)
          (s₁.lastEnd a.taskId early) (s₂.lastEnd a.taskId late) := by
  rcases addProject_cases hadd with ⟨e, he, -⟩ | ⟨result', hr, hp⟩
  · cases he
  obtain rfl := Except.ok.inj hr
  have hs₁ := hp.wf hs
  have hv : s₁.planVersions.get? result.planVersionId = some ⟨result.project.id, .proposed,
      serializePlan result.plan, actor.map PersonRecord.id⟩ := by
    rw [hp.planVersions, OrdDict.get?_insert_self]
  -- the version while it is proposed, when it is confirmed, and at the end
  have hproposed := Store.version_after_proposed hs₁ hv rfl hearly
  have hcommitted := Act.perform_version (.confirm taskSink result.planVersionId confirmer)
    (hs₁.after early) hproposed
  rw [← Store.after_snoc] at hcommitted
  simp only [Act.confirms, decide_true, and_self, if_true, reduceCtorEq, if_false] at hcommitted
  have hfinal := Store.version_after_committed (hs₁.after _) hcommitted rfl late
  rw [← Store.after_append_cons] at hfinal
  obtain ⟨s₂, hs₂⟩ : ∃ s₂, s₂ = s₁.after (early ++ [.confirm taskSink result.planVersionId confirmer]) :=
    ⟨_, rfl⟩
  rw [← hs₂] at hfinal ⊢
  have hcarries : ∀ a ∈ result.plan.assignments,
      (a.edited (s₂.lastAssignee a.taskId late) (s₂.lastStart a.taskId late)
        (s₂.lastEnd a.taskId late)).Carries
          (s₁.lastAssignee a.taskId (early ++ .confirm taskSink result.planVersionId confirmer :: late))
          (s₁.lastStart a.taskId (early ++ .confirm taskSink result.planVersionId confirmer :: late))
          (s₁.lastEnd a.taskId (early ++ .confirm taskSink result.planVersionId confirmer :: late))
          (s₁.after (early ++ .confirm taskSink result.planVersionId confirmer :: late)).assignments ↔
        a.Withstands (s₁.lastAssignee a.taskId early) (s₂.lastAssignee a.taskId late)
          (s₁.lastStart a.taskId early) (s₂.lastStart a.taskId late)
          (s₁.lastEnd a.taskId early) (s₂.lastEnd a.taskId late) := by
    intro a ha
    obtain ⟨t, hrows⟩ := hp.rows hs ha
    rw [Store.lastAssignee_confirm, Store.lastStart_confirm, Store.lastEnd_confirm, ← hs₂]
    refine carries_iff (t := t) fun p => ?_
    rw [Store.row_after (hs₁.task_of_version hv ha), Store.lastAssignee_confirm, ← hs₂, hrows]
  constructor
  · rintro ⟨pv, hpv, -, hall⟩ a ha
    obtain rfl := Option.some.inj (hfinal.symm.trans hpv)
    exact (hcarries a ha).mp (hall _ (List.mem_map_of_mem ha))
  · intro h
    refine ⟨_, hfinal, rfl, fun b hb => ?_⟩
    obtain ⟨a, ha, rfl⟩ := List.mem_map.mp hb
    exact (hcarries a ha).mpr (h a ha)

/-- Anna, and Boris who is asked to take over. -/
def twoShooters : Store := { shootingStore with
  people := (OrdDict.empty.insert 1 { name := "Анна" }).insert 9 { name := "Борис" }
  nextId := 10 }

theorem edits_survive_iff_takeover : ∃ (result : AddProjectResult) (s₁ : Store),
    (addProject .onWeekdays { title := "Ролик", templateCode := "lite" } none anna shooting 1 [] []
      none).run twoShooters = (.ok result, s₁) ∧
    (s₁.EditsSurvive result.planVersionId
        ([] ++ .confirm none result.planVersionId none :: [.reassign true (.value 11) (.value 9) none]) ↔
      ∀ a ∈ result.plan.assignments,
        let s₂ := s₁.after ([] ++ [.confirm none result.planVersionId none])
        a.Withstands (s₁.lastAssignee a.taskId [])
          (s₂.lastAssignee a.taskId [.reassign true (.value 11) (.value 9) none])
          (s₁.lastStart a.taskId []) (s₂.lastStart a.taskId [.reassign true (.value 11) (.value 9) none])
          (s₁.lastEnd a.taskId []) (s₂.lastEnd a.taskId [.reassign true (.value 11) (.value 9) none])) :=
  ⟨_, _, rfl, edits_survive_iff .onWeekdays { title := "Ролик", templateCode := "lite" } none none anna
    shooting 1 [] [] none none twoShooters _ _ [] [.reassign true (.value 11) (.value 9) none]
    (by constructor <;> decide) rfl nofun⟩

/-- Boris takes over before the plan is confirmed; it is confirmed with Anna. -/
theorem early_takeover_lost : ∃ result s₁,
    (addProject .onWeekdays { title := "Ролик", templateCode := "lite" } none anna shooting 1 [] []
      none).run twoShooters = (.ok result, s₁) ∧
    ¬ s₁.EditsSurvive result.planVersionId
      [.reassign true (.value 11) (.value 9) none, .confirm none result.planVersionId none] := by
  refine ⟨_, _, rfl, ?_⟩
  rintro ⟨pv, hv, -, h⟩
  obtain rfl := Option.some.inj hv
  have hwho := (h _ List.mem_cons_self).who 9 rfl
  exact absurd hwho.1 (by decide)

end Planner
