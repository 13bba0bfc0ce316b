import Planner.CompletePlan
import Planner.Confirmation
import Planner.ConfirmFaults
import Planner.EditsSurvive
import Planner.ExecutorBinding

/-! Whom the mirror of a confirmed plan names. A card has the assignee of its
assignment, the rows have everyone who works on the task; the two differ on a
pair. -/

namespace Planner

open Program

namespace Store

variable (s : Store)

def nameOf (p : UUID) : Option String := (s.people.get? p).map PersonRow.name

/-- The card of one assignment. -/
def cardOf (projectId : UUID) (a : Assignment) : SinkTask where
  title := (s.tasks.mapEntries fun _ t => t.name).getD a.taskId "Задача"
  assignees := (s.nameOf a.personId).toList
  project := some (((s.projects.get? projectId).map ProjectRow.title).getD "Проект")
  deadline := some a.endDate

/-- A row of the proposal that led from `s` to `s'`. -/
def RowWritten (s s' : Store) (t p : UUID) : Prop := (t, p) ∈ s'.assignments.keys ∧ (t, p) ∉ s.assignments.keys

/-- The card names the people with rows for the task, and nobody else. -/
def NamesEveryone (s s' : Store) (t : UUID) (card : SinkTask) : Prop :=
  ∀ name, name ∈ card.assignees ↔ ∃ p, RowWritten s s' t p ∧ s'.nameOf p = some name

end Store

/-- Who may take the task. -/
def candidatesOf (people : List Person) (t : Task) : List Person :=
  allowedPeople (projectRequest people [] [] 0 [] [] none) t

/-- A required pair, and no window, whose first two candidates have different names. -/
def Task.PairOfTwo (t : Task) (people : List Person) (s : Store) : Prop :=
  t.durationIsWindow = false ∧ t.pairMode = .required ∧
    ∃ p1 p2 rest, candidatesOf people t = p1 :: p2 :: rest ∧ s.nameOf p1.id ≠ s.nameOf p2.id

section Cards

variable {s : Store}

theorem get?_listed (s : Store) (p : UUID) :
    (OrdDict.ofList ((s.peopleByName.map fun e => e.2.record e.1).map fun r => (r.id, r.name))).get? p =
      s.nameOf p := by
  have hperm : ((s.peopleByName.map fun e => e.2.record e.1).map fun r => (r.id, r.name)).Perm
      (s.people.entries.map fun e => (e.1, e.2.name)) := by
    rw [List.map_map]
    exact (List.perm_insertionSort _ _).map _
  have hnodup : ((s.people.entries.map fun e => (e.1, e.2.name)).map Prod.fst).Nodup := by
    rw [List.map_map]
    exact s.people.nodup_keys
  rw [OrdDict.get?_ofList_perm hnodup hperm]
  exact (OrdDict.get?_ofList_entries (s.people.mapEntries fun _ r => r.name) p).trans (OrdDict.get?_mapEntries _ _ _)

theorem boardCards_run_eq (pv : PlanVersionRecord) (s : Store) :
    (boardCards pv).run s = (.ok (pv.payload.assignments.map (s.cardOf pv.projectId)), s) := by
  simp only [boardCards, run_bind, Repo.getProject, Repo.getTaskNameMap, Repo.listPeople, run_read, run_pure, get?_listed,
    Option.map_map]
  rfl

/-- Once the version has moved, every assignment of its payload gets a card. -/
theorem confirmPlan_run_cards {sink : TaskSink} (hreal : sink.isNoop = false) {v : UUID} {actor : Option PersonRecord}
    {row : PlanVersionRow} (hv : s.planVersions.get? v = some row) (hproposed : row.status = .proposed)
    (hknown : s.knows (actor.map PersonRecord.id)) {cards : List SinkTask}
    (hcards : cards = row.payload.assignments.map
      ((s.confirmed v (actor.map PersonRecord.id) row.projectId).cardOf row.projectId)) :
    (confirmPlan (some sink) v actor).run s =
      (.ok ⟨⟨v, row.projectId, .committed, row.payload⟩, cards.length, cards.length - pushTasks sink 0 cards⟩,
        s.confirmed v (actor.map PersonRecord.id) row.projectId) := by
  have hmirror : (mirrorTasks (some sink) ⟨v, row.projectId, row.status, row.payload⟩).run
      (s.confirmed v (actor.map PersonRecord.id) row.projectId) =
        (.ok (cards.length - pushTasks sink 0 cards, cards.length),
          s.confirmed v (actor.map PersonRecord.id) row.projectId) := by
    simp only [mirrorTasks, hreal, Bool.false_eq_true, if_false, run_bind, run_attempt, boardCards_run_eq, run_pure,
      hcards]
  rw [confirmPlan, run_bind_of_ok (getPlanVersion_run hv)]
  refine (run_bind_of_ok (transition_run hv hproposed)).trans ?_
  rw [if_pos rfl, run_bind_of_ok (confirmAudit_run hknown), run_bind_of_ok (confirmProject_run _ _ _ _),
    run_bind_of_ok hmirror]
  rfl

end Cards

section Rows

variable {solver : GreedySolver} {intent : AddProjectIntent} {actor : Option PersonRecord} {people : List Person}
  {template : ProjectTemplate} {today : Date} {existing : List DayAllocation} {overrides : List DayOverride}
  {s s' : Store} {result : AddProjectResult}

/-- The rows of a task are those of the people in its assignment. -/
theorem Proposed.rowWritten_iff
    (h : Proposed solver intent actor people template today existing overrides s result s') {a : Assignment}
    (ha : a ∈ result.plan.assignments) (p : UUID) : Store.RowWritten s s' a.taskId p ↔ a.Involves p := by
  obtain ⟨t, -, -, hrows⟩ := h.mem_rows ha
  rw [Store.RowWritten, h.assignments, OrdDict.mem_keys_insertAll, ← mem_keys_hoursByPerson t]
  constructor
  · rintro ⟨hrow | hold, hnew⟩
    · obtain ⟨⟨k, hours⟩, hr, rfl⟩ := List.mem_map.mp hrow
      exact OrdDict.mem_keys.mpr (by rw [(hrows p hours).mp hr]; rfl)
    · exact absurd hold hnew
  · intro hp
    obtain ⟨hours, hget⟩ := Option.isSome_iff_exists.mp (OrdDict.mem_keys.mp hp)
    have hr := (hrows p hours).mpr hget
    exact ⟨Or.inl (List.mem_map_of_mem hr), (h.recordable.rows_new _ hr).2⟩

/-- Everyone whom the day is shared by works on it. -/
theorem involves_onDay {participants : List UUID} (hne : participants ≠ []) (day : Date) (hours : Int) (tid : UUID)
    (person : Person) (q : UUID) :
    ((Placement.onDay participants day hours).toAssignment tid person).Involves q ↔ q ∈ participants := by
  have hshared : ((Placement.onDay participants day hours).toAssignment tid person).allocations =
      participants.map fun p => ⟨p, day, hours⟩ := rfl
  rw [Assignment.Involves, hshared, if_neg (by simpa using hne)]
  simp only [List.mem_map, exists_exists_and_eq_and, exists_eq_right]

/-- Two people share a pair; any other assignment is one person's. -/
theorem Placed.involves {task : Task} {earliest : Date} {cal : WorkingCalendar} {free : UUID → Date → Int}
    {limit : Date} {allowed : List Person} {person : Person} {p : Placement}
    (h : Placed task earliest cal free limit allowed person p) (tid : UUID) :
    (task.durationIsWindow = false ∧ task.pairMode = .required ∧ ∃ p2 rest, allowed = person :: p2 :: rest ∧
        ∀ q, (p.toAssignment tid person).Involves q ↔ q = person.id ∨ q = p2.id) ∨
      ¬ (task.durationIsWindow = false ∧ task.pairMode = .required ∧ 2 ≤ allowed.length) ∧
        ∀ q, (p.toAssignment tid person).Involves q ↔ q = person.id := by
  cases h with
  | window hw ha =>
    have halone : ((allocateWindow task earliest cal).toAssignment tid person).CarriedBy person.id :=
      ⟨rfl, fun al hal => nomatch hal⟩
    refine Or.inr ⟨fun hh => ?_, halone.involves⟩
    rw [hw] at hh
    cases hh.1
  | pair hw hm ha =>
    refine Or.inl ⟨hw, hm, _, _, ha, fun q => ?_⟩
    rw [involves_onDay (List.cons_ne_nil _ _), List.mem_pair]
  | single hw hm hwin =>
    obtain ⟨-, -, -, hp, -⟩ := hwin
    have halone : (p.toAssignment tid person).CarriedBy person.id := ⟨rfl, placementOf_person hp⟩
    exact Or.inr ⟨fun hh => absurd (hm hh.2.1) (not_lt.mpr hh.2.2), halone.involves⟩

/-- Whoever may take a task has a name. -/
theorem exists_nameOf_candidate (hpool : ∀ p ∈ people, p.id ∈ s.people.keys) {t : Task} {q : Person}
    (hq : q ∈ candidatesOf people t) : ∃ name, s.nameOf q.id = some name := by
  have hlisted : q ∈ people := allowedPeople_subset hq
  obtain ⟨row, hrow⟩ := Option.isSome_iff_exists.mp (OrdDict.mem_keys.mp (hpool q hlisted))
  exact ⟨row.name, by rw [Store.nameOf, hrow]; rfl⟩

theorem pairOfTwo_iff {t : Task} {p1 p2 : Person} {rest : List Person} {n1 n2 : String}
    (hw : t.durationIsWindow = false) (hm : t.pairMode = .required) (hcands : candidatesOf people t = p1 :: p2 :: rest)
    (hn1 : s.nameOf p1.id = some n1) (hn2 : s.nameOf p2.id = some n2) : t.PairOfTwo people s ↔ n1 ≠ n2 := by
  rw [Task.PairOfTwo, hcands]
  constructor
  · rintro ⟨-, -, q1, q2, others, he, hne⟩
    simp only [List.cons.injEq] at he
    obtain ⟨rfl, rfl, -⟩ := he
    rw [hn1, hn2] at hne
    exact fun heq => hne (congrArg some heq)
  · exact fun hne => ⟨hw, hm, p1, p2, rest, rfl, by rw [hn1, hn2]; exact fun he => hne (Option.some.inj he)⟩

/-- A card and the rows name the same people unless the task is a pair of two names. -/
theorem Proposed.namesEveryone_iff
    (h : Proposed solver intent actor people template today existing overrides s result s')
    (hpool : ∀ p ∈ people, p.id ∈ s.people.keys) {a : Assignment} (ha : a ∈ result.plan.assignments) {t : Task}
    (ht : t ∈ result.tasks) (hta : t.id = a.taskId) {card : SinkTask} (hcard : card.assignees = (s.nameOf a.personId).toList) :
    Store.NamesEveryone s s' a.taskId card ↔ ¬ t.PairOfTwo people s := by
  obtain ⟨deps, hinst, hplan⟩ := h.planned
  have hpin : (projectRequest people result.tasks deps today overrides existing intent.deadline).Unpinned :=
    instantiate_unpinned hinst
  obtain ⟨t', ht', earliest, free, person, p, -, hp, rfl⟩ := placed_of_plan hpin hplan ha
  obtain rfl := List.inj_on_of_nodup_map h.recordable.tasks_nodup ht ht' hta
  have hpeople : s'.nameOf = s.nameOf := by
    funext q
    rw [Store.nameOf, Store.nameOf, h.people_eq]
  have hallowed : allowedPeople (projectRequest people result.tasks deps today overrides existing intent.deadline) t =
      candidatesOf people t := rfl
  rw [hallowed] at hp
  have hperson : (p.toAssignment t.id person).personId = person.id := rfl
  rw [hperson] at hcard
  rw [Store.NamesEveryone, hpeople, hcard]
  simp only [h.rowWritten_iff ha, Option.mem_toList]
  rcases hp.involves t.id with ⟨hw, hm, p2, rest, hcands, hinv⟩ | ⟨hone, hinv⟩
  · obtain ⟨n1, hn1⟩ := exists_nameOf_candidate (t := t) (q := person) hpool (by simp [hcands])
    obtain ⟨n2, hn2⟩ := exists_nameOf_candidate (t := t) (q := p2) hpool (by simp [hcands])
    rw [pairOfTwo_iff hw hm hcands hn1 hn2, not_not, hn1]
    constructor
    · intro hall
      exact Option.some.inj ((hall n2).mpr ⟨p2.id, (hinv _).mpr (Or.inr rfl), hn2⟩)
    · rintro rfl name
      constructor
      · exact fun hname => ⟨person.id, (hinv _).mpr (Or.inl rfl), hn1.trans hname⟩
      · rintro ⟨q, hq, hqn⟩
        rcases (hinv q).mp hq with rfl | rfl
        · exact hn1.symm.trans hqn
        · exact hn2.symm.trans hqn
  · refine iff_of_true (fun name => ?_) ?_
    · simp only [hinv, exists_eq_left]
    · rintro ⟨hw, hm, q1, q2, rest, hcands, -⟩
      exact hone ⟨hw, hm, by rw [hcands]; exact Nat.le_add_left 2 _⟩

end Rows

/-- A plan of people who are there is confirmed as it was proposed: then the card
of a task names everyone who has a row for it, unless the task is a pair of two
names. `cards` are the cards that any board is sent. -/
theorem mirror_names_iff (solver : GreedySolver) (intent : AddProjectIntent) (actor : Option PersonRecord)
    (people : List Person) (template : ProjectTemplate) (today : Date) (existing : List DayAllocation)
    (overrides : List DayOverride) (projectSink : Option ProjectSink) (s s₁ : Store) (result : AddProjectResult)
    (hadd : (addProject solver intent actor people template today existing overrides projectSink).run s =
      (.ok result, s₁))
    (hpool : ∀ p ∈ people, p.id ∈ s.people.keys) (s₂ : Store)
    (hversion : s₂.planVersions.get? result.planVersionId = s₁.planVersions.get? result.planVersionId)
    (hpeople : s₂.people = s₁.people) (confirmer : Option PersonRecord)
    (hknown : s₂.knows (confirmer.map PersonRecord.id)) :
    (result.plan.assignments.map Assignment.taskId).Perm (result.tasks.map Task.id) ∧ ∃ cards : List SinkTask,
      (∀ sink : TaskSink, sink.isNoop = false →
        ((confirmPlan (some sink) result.planVersionId confirmer).run s₂).1 =
          .ok ⟨⟨result.planVersionId, result.project.id, .committed, serializePlan result.plan⟩, cards.length,
            cards.length - pushTasks sink 0 cards⟩) ∧
      List.Forall₂ (fun a card => ∀ t ∈ result.tasks, t.id = a.taskId →
        (Store.NamesEveryone s s₁ a.taskId card ↔ ¬ t.PairOfTwo people s)) result.plan.assignments cards := by
  rcases addProject_cases hadd with ⟨e, he, -⟩ | ⟨result', hr, h⟩
  · cases he
  obtain rfl := Except.ok.inj hr
  have hv : s₂.planVersions.get? result.planVersionId =
      some ⟨result.project.id, .proposed, serializePlan result.plan, actor.map PersonRecord.id⟩ := by
    rw [hversion, h.planVersions, OrdDict.get?_insert_self]
  have hcovered : (result.plan.assignments.map Assignment.taskId).Perm (result.tasks.map Task.id) := by
    obtain ⟨deps, -, hplan⟩ := h.planned
    exact taskIds_perm h.recordable.tasks_nodup hplan
  refine ⟨hcovered, _, fun sink hreal => by rw [confirmPlan_run_cards hreal hv rfl hknown rfl], ?_⟩
  refine List.forall₂_map_right_iff.mpr (List.forall₂_same.mpr fun a ha t ht hta => ?_)
  refine h.namesEveryone_iff hpool ha ht hta ?_
  have hnames : (s₂.confirmed result.planVersionId (confirmer.map PersonRecord.id) result.project.id).nameOf =
      s.nameOf := by
    funext p
    have hsame : (s₂.confirmed result.planVersionId (confirmer.map PersonRecord.id) result.project.id).people =
        s.people := hpeople.trans h.people_eq
    rw [Store.nameOf, Store.nameOf, hsame]
  rw [Store.cardOf, hnames]

section Shooting

/-- A shooting that Anna and Boris do together. -/
def sharedShooting : ProjectTemplate := ⟨"lite", [{
  ord := 1, name := "Съёмка", durationHours := 8, allowedPersonIds := [1, 9], pairMode := .required }]⟩

def shooters : List Person := [{ id := 1, name := "Анна" }, { id := 9, name := "Борис" }]

theorem mirror_names_iff_shooters : ∃ (result : AddProjectResult) (s₁ : Store),
    (addProject .onWeekdays { title := "Ролик", templateCode := "lite" } none shooters sharedShooting 1 [] []
      none).run twoShooters = (.ok result, s₁) ∧
    (result.plan.assignments.map Assignment.taskId).Perm (result.tasks.map Task.id) ∧ ∃ cards : List SinkTask,
      (∀ sink : TaskSink, sink.isNoop = false →
        ((confirmPlan (some sink) result.planVersionId none).run s₁).1 =
          .ok ⟨⟨result.planVersionId, result.project.id, .committed, serializePlan result.plan⟩, cards.length,
            cards.length - pushTasks sink 0 cards⟩) ∧
      List.Forall₂ (fun a card => ∀ t ∈ result.tasks, t.id = a.taskId →
        (Store.NamesEveryone twoShooters s₁ a.taskId card ↔ ¬ t.PairOfTwo shooters twoShooters))
        result.plan.assignments cards :=
  ⟨_, _, rfl, mirror_names_iff .onWeekdays { title := "Ролик", templateCode := "lite" } none shooters sharedShooting 1
    [] [] none twoShooters _ _ rfl (by decide) _ rfl rfl none nofun⟩

/-- Both have a row for the shooting; the card has Anna. -/
theorem second_shooter_not_named : ∃ result s₁ card,
    (addProject .onWeekdays { title := "Ролик", templateCode := "lite" } none shooters sharedShooting 1 [] []
      none).run twoShooters = (.ok result, s₁) ∧
    result.plan.assignments.map Assignment.taskId = [11] ∧
    ((boardCards ⟨result.planVersionId, result.project.id, .committed, serializePlan result.plan⟩).run
      (s₁.confirmed result.planVersionId none result.project.id)).1 = .ok [card] ∧
    ¬ Store.NamesEveryone twoShooters s₁ 11 card := by
  refine ⟨_, _, _, rfl, rfl, rfl, fun hall => ?_⟩
  have hboris : "Борис" ∈ ["Анна"] := (hall "Борис").mpr ⟨9, ⟨by decide, by decide⟩, rfl⟩
  exact absurd hboris (by decide)

end Shooting

end Planner
