import Planner.AdminBoard
import Planner.LiveCaptures

/-! The load of the board and cancelled projects. The rows of the tasks are not chosen by
what has become of their project, and so a proposal that is retired stays on the board. -/

namespace Planner

open Program

/-- The days of the task, with the deadline of its project. -/
def TaskRow.days (row : TaskRow) (deadline : Option Date) : List Date :=
  daySpan row.startDate (row.endDate.or deadline)

def TaskRow.dayHours (row : TaskRow) (deadline : Option Date) (d : Date) : Rat :=
  if d ∈ row.days deadline then row.durationHours / (row.days deadline).length else 0

namespace Store

variable (s : Store)

/-- The rows of the tasks of projects that are not cancelled. -/
def liveTaskMetas : List TaskMeta :=
  (s.joinedTasks.filter fun j => j.2.status ≠ .cancelled).flatMap fun j => (s.assigneesOf j.1.1).map (j.1.2.toMeta j.1.1 j.2)

/-- The board shows the hours of live work, whatever window is looked at. -/
def BoardLive : Prop :=
  ∀ start days p j, personDayHours s.taskMetas start days p j = personDayHours s.liveTaskMetas start days p j

/-- The hours of a task that the person has on the day. -/
def taskHours (e : UUID × TaskRow) (p : UUID) (d : Date) : Rat :=
  if (e.1, p) ∈ s.assignments.keys ∧ p ∈ s.people.keys then
    e.2.dayHours ((s.label e.2.projectId).bind ProjectLabel.deadline) d
  else 0

/-- The hours of the tasks in those projects. -/
def hoursWhere (P : UUID → Bool) (p : UUID) (d : Date) : Rat :=
  (s.tasks.entries.map fun e => if P e.2.projectId then s.taskHours e p d else 0).sum

def isCancelled (q : UUID) : Bool := s.projectStatus q = some .cancelled

end Store

section Sums

variable {s : Store}

theorem taskSpan_toMeta (row : TaskRow) (t : UUID) (project : ProjectRow) (assignee : Option (UUID × String)) :
    taskSpan (row.toMeta t project assignee) = row.days project.deadline := by
  rw [taskSpan, TaskRow.days]
  congr 1
  change row.endDate.or (project.deadline.or row.endDate) = row.endDate.or project.deadline
  cases row.endDate with
  | none => rw [Option.none_or, Option.none_or, Option.or_none]
  | some d => rfl

theorem sum_assigneesOf (row : TaskRow) (t : UUID) (project : ProjectRow) (p : UUID) (d : Date) :
    ((s.assigneesOf t).map fun a => (row.toMeta t project a).share p d).sum =
      if (t, p) ∈ s.assignments.keys ∧ p ∈ s.people.keys then row.dayHours project.deadline d else 0 := by
  have hshare : ∀ a, (row.toMeta t project a).share p d = if a.map Prod.fst = some p then row.dayHours project.deadline d else 0 := by
    intro a
    rw [TaskMeta.share, taskSpan_toMeta, TaskRow.dayHours, ite_and]
    rfl
  have hkey : ∀ k ∈ s.assignments.keys.filter fun k => k.1 = t,
      (row.toMeta t project ((s.people.get? k.2).map fun row => (k.2, row.name))).share p d =
        if p ∈ s.people.keys ∧ k = (t, p) then row.dayHours project.deadline d else 0 := by
    intro k hk
    have hkt : k.1 = t := of_decide_eq_true (List.mem_filter.mp hk).2
    rw [hshare, Option.map_map]
    refine if_congr ?_ rfl rfl
    rw [OrdDict.mem_keys, Option.map_eq_some_iff]
    constructor
    · rintro ⟨person, hperson, rfl⟩
      exact ⟨Option.isSome_of_eq_some hperson, Prod.ext hkt rfl⟩
    · rintro ⟨hperson, rfl⟩
      obtain ⟨person, hperson⟩ := Option.isSome_iff_exists.mp hperson
      exact ⟨person, hperson, rfl⟩
  have hrows : ((s.assigneesOf t).map fun a => (row.toMeta t project a).share p d).sum =
      ((s.assignments.keys.filter fun k => k.1 = t).map fun k =>
        if p ∈ s.people.keys ∧ k = (t, p) then row.dayHours project.deadline d else 0).sum := by
    rw [← List.map_congr_left hkey, Store.assigneesOf]
    split
    · rename_i hnil
      rw [List.map_eq_nil_iff.mp hnil]
      simp [hshare]
    · rw [List.map_map]
      rfl
  have hnodup : (s.assignments.keys.filter fun k => k.1 = t).Nodup := List.Nodup.filter _ s.assignments.nodup_keys
  rw [hrows, sum_map_once hnodup]
  by_cases h : (t, p) ∈ s.assignments.keys ∧ p ∈ s.people.keys
  · rw [if_pos h, if_pos ⟨h.2, List.mem_filter.mpr ⟨h.1, decide_eq_true rfl⟩⟩]
  · rw [if_neg h, if_neg fun h' => h ⟨(List.mem_filter.mp h'.2).1, h'.1⟩]

theorem sum_flatMap {α β : Type} (l : List α) (f : α → List β) (g : β → Rat) :
    ((l.flatMap f).map g).sum = (l.map fun a => ((f a).map g).sum).sum := by
  induction l with
  | nil => rfl
  | cons a l ih => rw [List.flatMap_cons, List.map_append, List.sum_append, ih, List.map_cons, List.sum_cons]

/-- The hours over the rows of the join are those over the tasks. -/
theorem sharesOn_joinedTasks (Q : ProjectStatus → Bool) (p : UUID) (d : Date) :
    sharesOn ((s.joinedTasks.filter fun j => Q j.2.status).flatMap fun j => (s.assigneesOf j.1.1).map (j.1.2.toMeta j.1.1 j.2))
      p d = s.hoursWhere (fun q => (s.projectStatus q).any Q) p d := by
  rw [sharesOn, sum_flatMap, Store.joinedTasks, ((List.perm_insertionSort _ _).filter _ |>.map _).sum_eq, Store.hoursWhere]
  induction s.tasks.entries with
  | nil => rfl
  | cons e entries ih =>
    rw [List.map_cons, List.sum_cons, ← ih]
    cases hproject : s.projects.get? e.2.projectId with
    | none =>
      have hstatus : s.projectStatus e.2.projectId = none := by rw [Store.projectStatus, hproject]; rfl
      rw [List.filterMap_cons_none (by rw [hproject]; rfl), hstatus]
      exact (zero_add _).symm
    | some project =>
      have hstatus : s.projectStatus e.2.projectId = some project.status := by rw [Store.projectStatus, hproject]; rfl
      have hdeadline : (s.label e.2.projectId).bind ProjectLabel.deadline = project.deadline := by rw [Store.label, hproject]; rfl
      rw [List.filterMap_cons_some (b := (e, project)) (by rw [hproject]; rfl), hstatus, List.filter_cons]
      cases hQ : Q project.status with
      | false =>
        rw [Option.any_some, hQ]
        exact (zero_add _).symm
      | true =>
        rw [Option.any_some, hQ, if_pos rfl, if_pos rfl, List.map_cons, List.sum_cons, Store.taskHours, hdeadline, List.map_map]
        exact congrArg (· + _) (sum_assigneesOf e.2 e.1 project p d)

theorem sharesOn_all (p : UUID) (d : Date) :
    sharesOn s.taskMetas p d = s.hoursWhere (fun q => (s.projectStatus q).any fun _ => true) p d := by
  rw [← sharesOn_joinedTasks, List.filter_true]
  rfl

/-- The board shows what is live and what is cancelled. -/
theorem sharesOn_taskMetas (p : UUID) (d : Date) :
    sharesOn s.taskMetas p d = sharesOn s.liveTaskMetas p d + s.hoursWhere s.isCancelled p d := by
  have hlive : sharesOn s.liveTaskMetas p d = s.hoursWhere (fun q => (s.projectStatus q).any (· ≠ .cancelled)) p d := by
    rw [← sharesOn_joinedTasks]
    rfl
  rw [sharesOn_all, hlive, Store.hoursWhere, Store.hoursWhere, Store.hoursWhere, ← List.sum_map_add]
  refine congrArg List.sum (List.map_congr_left fun e _ => ?_)
  rw [Store.isCancelled]
  cases s.projectStatus e.2.projectId with
  | none => exact (add_zero _).symm
  | some status => cases status <;> simp

theorem boardLive_iff : s.BoardLive ↔ ∀ p d, s.hoursWhere s.isCancelled p d = 0 := by
  constructor
  · intro h p d
    have hday := h d 1 p 0
    have hfirst : 0 < (1 : Int).toNat := Nat.zero_lt_one
    rw [personDayHours_eq, personDayHours_eq, if_pos hfirst, if_pos hfirst, Nat.add_zero, sharesOn_taskMetas] at hday
    exact left_eq_add.mp hday.symm
  · intro h start days p j
    rw [personDayHours_eq, personDayHours_eq, sharesOn_taskMetas, h, add_zero]

/-- On the pages, a live board has the load of the live tasks. -/
theorem buildBoard_run (h : s.BoardLive) (today : Date) : ∃ board people, (buildBoard today).run s = (.ok (board, people), s) ∧
    (board.loadRows, board.totals) =
      AdminBoard.load people (DayCells.fill s.liveTaskMetas today defaultDays).personDayH defaultDays :=
  ⟨_, _, rfl, AdminBoard.load_eq _ (h today defaultDays)⟩

end Sums

/-- New tasks have come, and the ones before are as they were. -/
structure Grows (new : List (UUID × TaskRow)) (s s' : Store) : Prop where
  tasks : s'.tasks.entries = s.tasks.entries ++ new
  people : s'.people = s.people
  assigned : ∀ t ∈ s.tasks.keys, ∀ p, (t, p) ∈ s'.assignments.keys ↔ (t, p) ∈ s.assignments.keys
  label : ∀ q ∈ s.projects.keys, s'.label q = s.label q

/-- What the request leaves on the board is live work: what is retired has no hours,
and a cancelled project gets no new ones from a capture or an assignment. -/
def Request.LoadsLive (U : CharTables) (s : Store) : Request → Prop
  | .retire old new => ∀ v ∈ old, v ≠ new → ∀ q, s.standing v = some (q, .proposed) →
      ∀ p d, s.hoursWhere (· = q) p d = 0
  | .capture _ intent _ => ∀ l, s.label (s.homeOf U intent.projectName).1 = some l → l.status = .cancelled →
      findDuplicate U (s.projectTasks (s.homeOf U intent.projectName).1) intent.taskTitle = none →
        s.namesFound intent.assigneeNames = [] ∨ intent.deadline.or l.deadline = none
  | .assign taskRef personName _ => ∀ person task row l, s.personByName personName = some person →
      matchTasks U taskRef s.tasksWithMeta = [task] → s.tasks.get? task.1 = some row → s.label row.projectId = some l →
        l.status = .cancelled → row.durationHours = 0 ∨ row.days l.deadline = [] ∨
          ∀ q, (task.1, q) ∈ s.assignments.keys ↔ q = person.id
  | _ => True

section Requests

variable {U : CharTables} {s s' : Store}

theorem isCancelled_iff {q : UUID} : s.isCancelled q = true ↔ ∃ l, s.label q = some l ∧ l.status = .cancelled := by
  rw [Store.isCancelled, decide_eq_true_iff, Store.Regular.projectStatus_eq, Option.map_eq_some_iff]

theorem isCancelled_congr {q : UUID} (h : s'.label q = s.label q) : s'.isCancelled q = s.isCancelled q := by
  rw [Store.isCancelled, Store.isCancelled, Store.Regular.projectStatus_eq, Store.Regular.projectStatus_eq, h]

theorem taskHours_congr {e : UUID × TaskRow} {p : UUID} (d : Date) (hpeople : s'.people = s.people)
    (hassigned : (e.1, p) ∈ s'.assignments.keys ↔ (e.1, p) ∈ s.assignments.keys)
    (hdeadline : (s'.label e.2.projectId).bind ProjectLabel.deadline = (s.label e.2.projectId).bind ProjectLabel.deadline) :
    s'.taskHours e p d = s.taskHours e p d := by
  rw [Store.taskHours, Store.taskHours, hpeople, hdeadline]
  exact if_congr (and_congr_left' hassigned) rfl rfl

theorem mem_of_entry {e : UUID × TaskRow} (hs : s.WF) (he : e ∈ s.tasks.entries) :
    e.1 ∈ s.tasks.keys ∧ e.2.projectId ∈ s.projects.keys :=
  ⟨List.mem_map_of_mem he, hs.task_project e.2 (List.mem_map_of_mem he)⟩

theorem Grows.hoursWhere {new : List (UUID × TaskRow)} (h : Grows new s s') (hs : s.WF) (p : UUID) (d : Date) :
    s'.hoursWhere s'.isCancelled p d = s.hoursWhere s.isCancelled p d +
      (new.map fun e => if s'.isCancelled e.2.projectId then s'.taskHours e p d else 0).sum := by
  rw [Store.hoursWhere, Store.hoursWhere, h.tasks, List.map_append, List.sum_append]
  congr 2
  refine List.map_congr_left fun e he => ?_
  obtain ⟨ht, hq⟩ := mem_of_entry hs he
  rw [isCancelled_congr (h.label _ hq), taskHours_congr d h.people (h.assigned _ ht p) (by rw [h.label _ hq])]

theorem Grows.of_tasks (htasks : s'.tasks = s.tasks) (hpeople : s'.people = s.people) (hassignments : s'.assignments = s.assignments)
    (hlabel : ∀ q ∈ s.projects.keys, s'.label q = s.label q) : Grows [] s s' where
  tasks := by rw [htasks, List.append_nil]
  people := hpeople
  assigned _ _ _ := by rw [hassignments]
  label := hlabel

theorem Grows.cancelled_eq {new : List (UUID × TaskRow)} (h : Grows new s s') (hs : s.WF)
    (hlive : ∀ e ∈ new, s'.isCancelled e.2.projectId = false) (p : UUID) (d : Date) :
    s'.hoursWhere s'.isCancelled p d = s.hoursWhere s.isCancelled p d := by
  rw [h.hoursWhere hs, List.sum_eq_zero, add_zero]
  intro x hx
  obtain ⟨e, he, rfl⟩ := List.mem_map.mp hx
  rw [hlive e he]
  rfl

/-- A proposal is not of a cancelled project. -/
theorem propose_grows (solver : GreedySolver) (intent : AddProjectIntent) (actor : Option PersonRecord) (today : Date)
    (sink : Option ProjectSink) : ∃ new, Grows new s ((Request.propose solver intent actor today sink).perform U s) ∧
      ∀ e ∈ new, ((Request.propose solver intent actor today sink).perform U s).isCancelled e.2.projectId = false := by
  have hadds : AddsTitled (strip intent.title) s ((Request.propose solver intent actor today sink).perform U s) :=
    buildAddProjectReply_opens.run (AddsTitled.refl _ s)
  have hcases := buildAddProjectReply_cases (show (buildAddProjectReply solver intent actor today sink).run s =
    (((buildAddProjectReply solver intent actor today sink).run s).1, (Request.propose solver intent actor today sink).perform U s)
    from rfl)
  generalize (Request.propose solver intent actor today sink).perform U s = s' at hadds hcases ⊢
  rcases hcases with ⟨-, h⟩ | ⟨result, template, -, -, -, h⟩
  · refine ⟨[], ?_, fun e he => (nomatch he)⟩
    have hpeople := h.aside.people
    obtain ⟨n, rfl | ⟨row, -, -, rfl⟩⟩ := h
    · exact .of_tasks rfl hpeople rfl hadds.kept
    · exact .of_tasks rfl hpeople rfl hadds.kept
  · refine ⟨result.tasks.map fun t => (t.id, taskRow result.project.id (scheduleOf result.plan.assignments) t), ?_, ?_⟩
    · refine ⟨?_, h.people_eq, fun t ht p => ?_, hadds.kept⟩
      · refine (congrArg OrdDict.entries h.tasks).trans (OrdDict.entries_insertAll _ _ ?_ fun k hk => ?_)
        · rw [List.map_map]
          exact h.recordable.tasks_nodup
        · rw [List.map_map] at hk
          obtain ⟨t, ht, rfl⟩ := List.mem_map.mp hk
          exact h.recordable.tasks_new t ht
      · rw [h.assignments, OrdDict.mem_keys_insertAll]
        refine or_iff_right fun hrow => ?_
        obtain ⟨r, hr, he⟩ := List.mem_map.mp hrow
        obtain ⟨u, hu, hut⟩ := List.mem_map.mp (assignmentRows_task hr)
        exact h.recordable.tasks_new u hu (by rw [hut, he]; exact ht)
    · intro e he
      obtain ⟨t, -, rfl⟩ := List.mem_map.mp he
      rw [← Bool.not_eq_true, isCancelled_iff]
      rintro ⟨l, hl, hcancelled⟩
      have hfresh : result.project.id ∉ s.projects.keys := h.project_id ▸ h.recordable.project_new
      have hplanning := (hadds.opened _ hfresh l hl).2
      rw [hplanning] at hcancelled
      cases hcancelled

theorem mem_keys_assigned {t : UUID} {hours : Int} {names : List String} {k : UUID × UUID} :
    k ∈ (s.assigned t hours names).assignments.keys ↔
      (k.1 = t ∧ ∃ name ∈ names, ∃ person, s.personByName name = some person ∧ person.id = k.2) ∨ k ∈ s.assignments.keys := by
  rw [Store.assigned, OrdDict.mem_keys_insertAll]
  refine or_congr_left ?_
  constructor
  · intro hk
    obtain ⟨e, he, rfl⟩ := List.mem_map.mp hk
    obtain ⟨name, hname, hfound⟩ := List.mem_filterMap.mp he
    obtain ⟨person, hperson, rfl⟩ := Option.map_eq_some_iff.mp hfound
    exact ⟨rfl, name, hname, person, hperson, rfl⟩
  · rintro ⟨rfl, name, hname, person, hperson, hid⟩
    refine List.mem_map.mpr ⟨((k.1, person.id), hours), List.mem_filterMap.mpr ⟨name, hname, ?_⟩, Prod.ext rfl hid⟩
    rw [hperson]
    rfl

theorem filed_grows (hs : s.TaskKeys) (home : UUID × String) (intent : CaptureTaskIntent) (actorId : Option UUID) :
    Grows [(s.nextId, intent.row home.1)] s (s.filed home intent actorId) where
  tasks := OrdDict.entries_insert_of_not_mem (fun ht => Nat.lt_irrefl _ (hs.task_lt _ ht)) _
  people := rfl
  assigned t ht p := by
    refine mem_keys_assigned.trans (or_iff_right ?_)
    rintro ⟨rfl, -⟩
    exact Nat.lt_irrefl _ (hs.task_lt _ ht)
  label _ _ := rfl

theorem hours_pos (intent : CaptureTaskIntent) : 0 < intent.hours := by
  unfold CaptureTaskIntent.hours
  split
  · split
    · assumption
    · decide
  · decide

/-- The new task has hours on some day iff somebody is found for it and it has a day. -/
theorem filedTask_hours (hs : s.WF) (home : UUID × String) (intent : CaptureTaskIntent) (actorId : Option UUID) {l : ProjectLabel}
    (hl : s.label home.1 = some l) :
    (∀ p d, (s.filed home intent actorId).taskHours (s.nextId, intent.row home.1) p d = 0) ↔
      s.namesFound intent.assigneeNames = [] ∨ intent.deadline.or l.deadline = none := by
  have hlabel : ((s.filed home intent actorId).label (intent.row home.1).projectId).bind ProjectLabel.deadline = l.deadline := by
    change (s.label home.1).bind _ = _
    rw [hl]
    rfl
  have hhas : ∀ p, (s.nextId, p) ∈ (s.filed home intent actorId).assignments.keys ↔
      ∃ name ∈ intent.assigneeNames, ∃ person, s.personByName name = some person ∧ person.id = p := by
    intro p
    refine mem_keys_assigned.trans ((or_iff_left fun hk => ?_).trans (and_iff_right rfl))
    exact Nat.lt_irrefl _ (hs.task_lt _ (hs.assignment_keys _ hk).1)
  have hdays : (intent.row home.1).days l.deadline = daySpan none (intent.deadline.or l.deadline) := rfl
  constructor
  · intro h
    by_contra hno
    obtain ⟨hfound, hday⟩ := not_or.mp hno
    obtain ⟨name, hname⟩ := List.exists_mem_of_ne_nil _ hfound
    obtain ⟨asked, hasked, he⟩ := List.mem_filterMap.mp hname
    obtain ⟨person, hperson, -⟩ := Option.map_eq_some_iff.mp he
    obtain ⟨d, hd⟩ := Option.ne_none_iff_exists'.mp hday
    have hzero := h person.id d
    rw [Store.taskHours, if_pos ⟨(hhas person.id).mpr ⟨asked, hasked, person, hperson, rfl⟩, Store.personByName_mem hperson⟩,
      hlabel, TaskRow.dayHours, hdays, hd] at hzero
    simp only [daySpan, List.mem_singleton, if_true, List.length_singleton, Nat.cast_one, div_one, Int.cast_eq_zero] at hzero
    exact absurd hzero (ne_of_gt (hours_pos intent))
  · rintro (hnobody | hnever) p d
    · rw [Store.taskHours, if_neg]
      rintro ⟨hk, -⟩
      obtain ⟨name, hname, person, hperson, -⟩ := (hhas p).mp hk
      have hmem : person.name ∈ s.namesFound intent.assigneeNames :=
        List.mem_filterMap.mpr ⟨name, hname, by rw [hperson]; rfl⟩
      rw [hnobody] at hmem
      cases hmem
    · have hnone : d ∉ daySpan none none := List.not_mem_nil
      rw [Store.taskHours, hlabel, TaskRow.dayHours, hdays, hnever, if_neg hnone]
      exact ite_self _

theorem Grows.boardLive {new : List (UUID × TaskRow)} (hgrows : Grows new s s') (hs : s.WF) (h : s.BoardLive)
    (hlive : ∀ e ∈ new, s'.isCancelled e.2.projectId = false) : s'.BoardLive :=
  boardLive_iff.mpr fun p d => (hgrows.cancelled_eq hs hlive p d).trans (boardLive_iff.mp h p d)

theorem filed_boardLive (hs : s.WF) (h : s.BoardLive) {home : UUID × String} {l : ProjectLabel} (hl : s.label home.1 = some l)
    (intent : CaptureTaskIntent) (actorId : Option UUID) : (s.filed home intent actorId).BoardLive ↔
      (l.status = .cancelled → s.namesFound intent.assigneeNames = [] ∨ intent.deadline.or l.deadline = none) := by
  have hgrows := filed_grows hs.taskKeys home intent actorId
  have hcancelled : (s.filed home intent actorId).isCancelled home.1 = true ↔ l.status = .cancelled := by
    rw [isCancelled_iff]
    constructor
    · rintro ⟨l', hl', hc⟩
      exact Option.some.inj (hl.symm.trans hl') ▸ hc
    · intro hc
      exact ⟨l, hl, hc⟩
  by_cases hc : l.status = .cancelled
  · have hall : (s.filed home intent actorId).BoardLive ↔
        ∀ p d, (s.filed home intent actorId).taskHours (s.nextId, intent.row home.1) p d = 0 := by
      rw [boardLive_iff]
      refine forall₂_congr fun p d => ?_
      rw [hgrows.hoursWhere hs, boardLive_iff.mp h, zero_add, List.map_singleton, List.sum_singleton]
      change (if (s.filed home intent actorId).isCancelled home.1 then _ else _) = _ ↔ _
      rw [if_pos (hcancelled.mpr hc)]
    rw [hall, filedTask_hours hs home intent actorId hl]
    exact ⟨fun hquiet _ => hquiet, fun hquiet => hquiet hc⟩
  · refine iff_of_true (hgrows.boardLive hs h fun e he => ?_) fun hc' => absurd hc' hc
    obtain rfl := List.mem_singleton.mp he
    exact Bool.eq_false_iff.mpr fun hc' => hc (hcancelled.mp hc')

theorem boardLive_capture (hs : s.WF) (h : s.BoardLive) (sink : Option TaskSink) (intent : CaptureTaskIntent)
    {actor : Option PersonRecord} (hknown : s.knows (actor.map PersonRecord.id)) :
    ((Request.capture sink intent actor).perform U s).BoardLive ↔ (Request.capture sink intent actor).LoadsLive U s := by
  have hrun := captureTask_run (U := U) hs.taskKeys hknown sink intent
  cases hfound : s.projectByTitle U (captureTarget intent.projectName) with
  | some e =>
    -- the project is there already
    have hhome : s.homeOf U intent.projectName = (e.1, e.2.title) := by rw [Store.homeOf, hfound]
    have hlabel : s.label e.1 = some e.2.label := label_of_projectByTitle hfound
    rw [Store.housed, hfound, hhome] at hrun
    dsimp only at hrun
    rw [Request.perform, hrun, Request.LoadsLive, hhome]
    cases hdup : findDuplicate U (s.projectTasks e.1) intent.taskTitle with
    | some task => exact iff_of_true h fun _ _ _ hnone => by cases hnone
    | none =>
      rw [filed_boardLive hs h hlabel]
      constructor
      · rintro hquiet l hl hc -
        obtain rfl := Option.some.inj (hlabel.symm.trans hl)
        exact hquiet hc
      · exact fun hloads hc => hloads e.2.label hlabel hc rfl
  | none =>
    have hhome : s.homeOf U intent.projectName = (s.nextId, captureTarget intent.projectName) := by rw [Store.homeOf, hfound]
    refine iff_of_true ?_ fun l hl => ?_
    · rw [Store.housed, hfound, hhome] at hrun
      dsimp only at hrun
      let t := (s.drawn 1).putProject s.nextId (s.stubRow (captureTarget intent.projectName) (actor.map PersonRecord.id))
      have hlabel : t.label s.nextId = some (s.stubRow (captureTarget intent.projectName) (actor.map PersonRecord.id)).label :=
        congrArg (Option.map _) (OrdDict.get?_insert_self _ _ _)
      have hgrows : Grows [] s t := .of_tasks rfl rfl rfl fun q hq =>
        congrArg (Option.map _) (OrdDict.get?_insert_of_ne _ _ fun he => hs.taskKeys.project_new (he ▸ hq))
      have hlive : t.BoardLive := hgrows.boardLive hs h fun e he => by cases he
      have hwf : t.WF := (hs.drawn 1).putProject (Nat.lt_succ_self _) _
      rw [Request.perform, hrun]
      split
      · exact h
      · exact (filed_boardLive hwf hlive hlabel intent _).mpr fun hc => by cases hc
    · rw [hhome, AddsTitled.label_none hs.taskKeys.project_new] at hl
      cases hl

theorem sum_map_update {e : UUID × TaskRow} {l : List (UUID × TaskRow)} (he : e ∈ l) {f g : UUID × TaskRow → Rat}
    (hl : (l.map Prod.fst).Nodup) (h : ∀ x ∈ l, x.1 ≠ e.1 → g x = f x) : (l.map g).sum + f e = (l.map f).sum + g e := by
  obtain ⟨pre, post, rfl⟩ := List.append_of_mem he
  rw [List.map_append, List.map_cons, List.nodup_append, List.nodup_cons] at hl
  obtain ⟨-, ⟨hpost, -⟩, hapart⟩ := hl
  have hpre : pre.map g = pre.map f := List.map_congr_left fun x hx =>
    h x (List.mem_append_left _ hx) (hapart _ (List.mem_map_of_mem hx) _ List.mem_cons_self)
  have hrest : post.map g = post.map f := List.map_congr_left fun x hx =>
    h x (List.mem_append_right _ (List.mem_cons_of_mem _ hx)) fun hxe => hpost (hxe ▸ List.mem_map_of_mem hx)
  simp only [List.map_append, List.map_cons, List.sum_append, List.sum_cons, hpre, hrest]
  ring

/-- Hours on no day: the task takes no time, or has no day. -/
theorem dayHours_eq_zero {row : TaskRow} {deadline : Option Date} :
    (∀ d, row.dayHours deadline d = 0) ↔ row.durationHours = 0 ∨ row.days deadline = [] := by
  constructor
  · intro h
    by_contra hno
    obtain ⟨hduration, hdays⟩ := not_or.mp hno
    obtain ⟨d, hd⟩ := List.exists_mem_of_ne_nil _ hdays
    have hzero := h d
    rw [TaskRow.dayHours, if_pos hd, div_eq_zero_iff, Int.cast_eq_zero, Nat.cast_eq_zero, List.length_eq_zero_iff] at hzero
    exact hno hzero
  · rintro (hduration | hdays) d
    · rw [TaskRow.dayHours, hduration, Int.cast_zero, zero_div]
      exact ite_self _
    · rw [TaskRow.dayHours, hdays, if_neg List.not_mem_nil]

theorem mem_keys_setAssignee {t p : UUID} {hours : Int} {k : UUID × UUID} :
    k ∈ (s.setAssignee t p hours).assignments.keys ↔ k = (t, p) ∨ k ∈ s.assignments.keys ∧ k.1 ≠ t := by
  rw [Store.setAssignee, OrdDict.mem_keys_insert]
  refine or_congr_right ?_
  rw [OrdDict.mem_keys, OrdDict.get?_filter, OrdDict.mem_keys]
  cases s.assignments.get? k <;> simp

/-- One person has the task instead of others, and nobody's hours change: it has none,
or that person had it alone. -/
theorem handedOver_iff {w : Date → Rat} {K : UUID → Prop} [DecidablePred K] {person : UUID} :
    (∀ p d, (if p = person then w d else 0) = if K p then w d else 0) ↔ (∀ d, w d = 0) ∨ ∀ p, K p ↔ p = person := by
  constructor
  · intro h
    by_contra hno
    obtain ⟨hsome, hnot⟩ := not_or.mp hno
    obtain ⟨d, hd⟩ := not_forall.mp hsome
    refine hnot fun p => ⟨fun hp => ?_, fun hp => ?_⟩
    · by_contra hne
      have hpd := h p d
      rw [if_neg hne, if_pos hp] at hpd
      exact hd hpd.symm
    · by_contra hk
      have hpd := h p d
      rw [if_pos hp, if_neg hk] at hpd
      exact hd hpd
  · rintro (hzero | hsame) p d
    · rw [hzero, ite_self, ite_self]
    · exact if_congr (hsame p).symm rfl rfl

theorem taskHours_eq (hs : s.WF) {t : UUID} {row : TaskRow} {l : ProjectLabel} (hl : s.label row.projectId = some l)
    (p : UUID) (d : Date) : s.taskHours (t, row) p d = if (t, p) ∈ s.assignments.keys then row.dayHours l.deadline d else 0 := by
  rw [Store.taskHours, hl]
  exact if_congr (and_iff_left_of_imp fun hk => (hs.assignment_keys _ hk).2) rfl rfl

theorem reassigned_boardLive (hs : s.WF) (h : s.BoardLive) {t person : UUID} {row : TaskRow} {l : ProjectLabel}
    (hrow : s.tasks.get? t = some row) (hl : s.label row.projectId = some l) (htasks : s'.tasks = s.tasks) (hs' : s'.WF)
    (hpeople : s'.people = s.people) (hassignments : s'.assignments = (s.setAssignee t person 8).assignments)
    (hlabel : ∀ q, s'.label q = s.label q) : s'.BoardLive ↔ (l.status = .cancelled →
      row.durationHours = 0 ∨ row.days l.deadline = [] ∨ ∀ q, (t, q) ∈ s.assignments.keys ↔ q = person) := by
  have hmem := OrdDict.get?_eq_some_iff.mp hrow
  have hcancelled : ∀ q, s'.isCancelled q = s.isCancelled q := fun q => isCancelled_congr (hlabel q)
  have hupdate : ∀ p d, s'.hoursWhere s'.isCancelled p d +
      (if s.isCancelled row.projectId then s.taskHours (t, row) p d else 0) =
        if s.isCancelled row.projectId then s'.taskHours (t, row) p d else 0 := by
    intro p d
    have hsum := sum_map_update (f := fun e => if s.isCancelled e.2.projectId then s.taskHours e p d else 0)
      (g := fun e => if s.isCancelled e.2.projectId then s'.taskHours e p d else 0) hmem s.tasks.nodup_keys fun e _ hne => ?_
    · have hold := boardLive_iff.mp h p d
      rw [Store.hoursWhere] at hold
      rw [hold, zero_add] at hsum
      rw [Store.hoursWhere, htasks]
      simp only [hcancelled]
      exact hsum
    · have hkey : (e.1, p) ∈ s'.assignments.keys ↔ (e.1, p) ∈ s.assignments.keys := by
        rw [hassignments, mem_keys_setAssignee]
        exact (or_iff_right fun he => hne (Prod.mk.inj he).1).trans (and_iff_left hne)
      rw [taskHours_congr d hpeople hkey (by rw [hlabel])]
  have hc : s.isCancelled row.projectId = true ↔ l.status = .cancelled := by
    rw [isCancelled_iff, hl]
    exact ⟨fun ⟨l', hl', hc⟩ => Option.some.inj hl' ▸ hc, fun hc => ⟨l, rfl, hc⟩⟩
  by_cases hcancel : l.status = .cancelled
  · have hsame : s'.BoardLive ↔ ∀ p d, s'.taskHours (t, row) p d = s.taskHours (t, row) p d := by
      rw [boardLive_iff]
      refine forall₂_congr fun p d => ?_
      have hpd := hupdate p d
      rw [if_pos (hc.mpr hcancel), if_pos (hc.mpr hcancel)] at hpd
      rw [← hpd]
      exact right_eq_add.symm.trans eq_comm
    have hnow : ∀ p, (t, p) ∈ s'.assignments.keys ↔ p = person := by
      intro p
      rw [hassignments, mem_keys_setAssignee]
      simp
    rw [hsame, ← or_assoc, ← dayHours_eq_zero]
    refine Iff.trans ?_ (handedOver_iff.trans ⟨fun hquiet _ => hquiet, fun hquiet => hquiet hcancel⟩)
    refine forall₂_congr fun p d => ?_
    rw [taskHours_eq hs' ((hlabel _).trans hl), taskHours_eq hs hl]
    exact iff_of_eq (congrArg (· = _) (if_congr (hnow p) rfl rfl))
  · refine iff_of_true (boardLive_iff.mpr fun p d => ?_) fun hc' => absurd hc' hcancel
    have hpd := hupdate p d
    rw [if_neg fun h => hcancel (hc.mp h), if_neg fun h => hcancel (hc.mp h), add_zero] at hpd
    exact hpd

theorem boardLive_assign (hs : s.WF) (h : s.BoardLive) (taskRef personName : String) {actorId : Option UUID}
    (hknown : s.knows actorId) : ((Request.assign taskRef personName actorId).perform U s).BoardLive ↔
      (Request.assign taskRef personName actorId).LoadsLive U s := by
  rcases @assign_effect U s taskRef personName actorId hknown with ⟨hno, he⟩ |
    ⟨person, task, audit, hperson, hmatch, htask, he⟩
  · rw [he]
    exact iff_of_true h fun person task _ _ hperson hmatch =>
      absurd ⟨Option.isSome_of_eq_some hperson, task, hmatch⟩ hno
  · obtain ⟨row, hrow⟩ := Option.isSome_iff_exists.mp (OrdDict.mem_keys.mp htask)
    obtain ⟨l, hl⟩ := AddsTitled.label_of_mem (hs.task_project row (OrdDict.mem_values.mpr ⟨_, hrow⟩))
    have hs' := assign_wf (U := U) hs taskRef personName hknown
    have hlabel := fun q => assign_label (U := U) (s := s) taskRef personName hknown q
    rw [reassigned_boardLive hs h hrow hl (by rw [he]; exact Store.tasks_editInPlan ..) hs'
      (by rw [he]; exact Store.people_editInPlan ..) (by rw [he]; exact Store.assignments_editInPlan ..) hlabel]
    constructor
    · intro hquiet person' task' row' l' hperson' hmatch' hrow' hl' hc
      obtain rfl := Option.some.inj (hperson.symm.trans hperson')
      obtain rfl := List.singleton_injective (hmatch.symm.trans hmatch')
      obtain rfl := Option.some.inj (hrow.symm.trans hrow')
      obtain rfl := Option.some.inj (hl.symm.trans hl')
      exact hquiet hc
    · exact fun hloads => hloads person task row l hperson hmatch hrow hl

namespace Settles

variable {v q : UUID} {st : PlanStatus}

theorem taskHours (h : Settles v q st s s') (e : UUID × TaskRow) (p : UUID) (d : Date) : s'.taskHours e p d = s.taskHours e p d := by
  refine taskHours_congr d ?_ ?_ ?_
  · obtain ⟨audit, rfl⟩ := h.eq
    rfl
  · obtain ⟨audit, rfl⟩ := h.eq
    exact Iff.rfl
  · rw [h.label]
    split
    · rename_i he
      rw [he]
      cases s.label q <;> rfl
    · rfl

theorem tasks (h : Settles v q st s s') : s'.tasks = s.tasks := by
  obtain ⟨audit, rfl⟩ := h.eq
  rfl

theorem isCancelled (h : Settles v q st s s') (r : UUID) :
    s'.isCancelled r = if r = q then decide ((s.label q).isSome ∧ st.project = .cancelled) else s.isCancelled r := by
  rw [Store.isCancelled, Store.Regular.projectStatus_eq, h.label]
  split
  · cases s.label q <;> simp
  · rw [Store.isCancelled, Store.Regular.projectStatus_eq]

end Settles

theorem not_cancelled_of_proposed (hs : s.Regular) {v q : UUID} (h : s.standing v = some (q, .proposed)) : s.isCancelled q = false := by
  rw [Store.isCancelled, decide_eq_false_iff_not]
  exact hs.live v q h

theorem boardLive_committed (hs : s.Regular) (h : s.BoardLive) {v q : UUID} (hsettles : Settles v q .committed s s') :
    s'.BoardLive := by
  refine boardLive_iff.mpr fun p d => ?_
  rw [← boardLive_iff.mp h p d, Store.hoursWhere, Store.hoursWhere, hsettles.tasks]
  refine congrArg List.sum (List.map_congr_left fun e _ => ?_)
  rw [hsettles.taskHours, hsettles.isCancelled]
  split
  · rename_i he
    rw [he, not_cancelled_of_proposed hs hsettles.standing]
    simp [PlanStatus.project]
  · rfl

theorem hoursWhere_retired (hs : s.Regular) {v q : UUID} (hsettles : Settles v q .superseded s s') (p : UUID) (d : Date) :
    s'.hoursWhere s'.isCancelled p d = s.hoursWhere s.isCancelled p d + s.hoursWhere (· = q) p d := by
  have hthere : q ∈ s.projects.keys := hs.wf.versionIds.project v q _ hsettles.standing
  obtain ⟨l, hl⟩ := AddsTitled.label_of_mem hthere
  rw [Store.hoursWhere, Store.hoursWhere, Store.hoursWhere, hsettles.tasks, ← List.sum_map_add]
  refine congrArg List.sum (List.map_congr_left fun e _ => ?_)
  rw [hsettles.taskHours, hsettles.isCancelled]
  by_cases he : e.2.projectId = q
  · rw [if_pos he, he, not_cancelled_of_proposed hs hsettles.standing, hl]
    simp [PlanStatus.project]
  · rw [if_neg he]
    simp [he]

theorem boardLive_retire (hs : s.Regular) (h : s.BoardLive) (old : Option UUID) (new : UUID) :
    ((Request.retire old new).perform U s).BoardLive ↔ (Request.retire old new).LoadsLive U s := by
  rcases @retire_effect U s old new with ⟨hno, he⟩ | ⟨v, q, rfl, hne, hsettles⟩
  · rw [he]
    exact iff_of_true h fun v hv hne q hstanding => absurd (Store.isProposed_iff.mpr ⟨q, hstanding⟩) (hno v hv hne)
  · rw [boardLive_iff]
    simp only [hoursWhere_retired hs hsettles, boardLive_iff.mp h, zero_add]
    constructor
    · intro hzero w hw hne' r hstanding
      obtain rfl := Option.some.inj hw
      obtain ⟨rfl, -⟩ := Prod.mk.inj (Option.some.inj (hsettles.standing.symm.trans hstanding))
      exact hzero
    · exact fun hloads => hloads v rfl hne q hsettles.standing

/-- Retiring a proposal takes no hour from the board. -/
theorem retire_keeps_hours (old : Option UUID) (new : UUID) (start : Date) (days : Int) (p : UUID) (j : Nat) :
    personDayHours ((Request.retire old new).perform U s).taskMetas start days p j = personDayHours s.taskMetas start days p j := by
  rcases @retire_effect U s old new with ⟨-, he⟩ | ⟨v, q, -, -, hsettles⟩
  · rw [he]
  · rw [personDayHours_eq, personDayHours_eq, sharesOn_all, sharesOn_all, Store.hoursWhere, Store.hoursWhere, hsettles.tasks]
    refine if_congr Iff.rfl (congrArg List.sum (List.map_congr_left fun e _ => ?_)) rfl
    rw [hsettles.taskHours, Store.Regular.projectStatus_eq, Store.Regular.projectStatus_eq, hsettles.label]
    split
    · rename_i he
      rw [he]
      cases s.label q <;> rfl
    · rfl

theorem boardLive_perform (hs : s.Regular) (h : s.BoardLive) (r : Request) (hknown : s.knows r.actorId) :
    (r.perform U s).BoardLive ↔ r.LoadsLive U s := by
  cases r with
  | propose solver intent actor today sink =>
    obtain ⟨new, hgrows, hlive⟩ := @propose_grows U s solver intent actor today sink
    exact iff_of_true (hgrows.boardLive hs.wf h hlive) trivial
  | retire old new => exact boardLive_retire hs h old new
  | confirm sink v actor =>
    refine iff_of_true ?_ trivial
    rcases @confirm_effect U s hs.wf.versionIds sink v actor hknown with he | ⟨q, hsettles⟩
    · rw [he]
      exact h
    · exact boardLive_committed hs h hsettles
  | capture sink intent actor => exact boardLive_capture hs.wf h sink intent hknown
  | assign taskRef personName actorId => exact boardLive_assign hs.wf h taskRef personName hknown

end Requests

/-- A retired proposal stays on the board, and so all along a run the board shows live
work only iff no request of it leaves hours in a cancelled project. -/
theorem board_live_iff (U : CharTables) (s₀ : Store) (hs : s₀.Regular) (h : s₀.BoardLive) (reqs : List Request)
    (hknown : ∀ r ∈ reqs, s₀.knows r.actorId) :
    (∀ pre old new, pre ++ [.retire old new] <+: reqs → ∀ start days p j,
      personDayHours (Trace.after (Request.perform U) s₀ (pre ++ [.retire old new])).taskMetas start days p j =
        personDayHours (Trace.after (Request.perform U) s₀ pre).taskMetas start days p j) ∧
      ((∀ pre, pre <+: reqs → (Trace.after (Request.perform U) s₀ pre).BoardLive) ↔
        ∀ pre r, pre ++ [r] <+: reqs → r.LoadsLive U (Trace.after (Request.perform U) s₀ pre)) := by
  refine ⟨fun pre old new _ start days p j => ?_, ?_⟩
  · rw [Trace.after_snoc]
    exact retire_keeps_hours old new start days p j
  · exact hs.always_iff h hknown fun t r ht hk hlive => boardLive_perform ht hlive r hk

section Shooting

theorem shootingStore_boardLive : shootingStore.BoardLive := boardLive_iff.mpr fun _ _ => rfl

theorem board_live_iff_shooting :
    (∀ pre old new, pre ++ [.retire old new] <+: [proposeClip] → ∀ start days p j,
      personDayHours (Trace.after (Request.perform .plain) shootingStore (pre ++ [.retire old new])).taskMetas start days p j =
        personDayHours (Trace.after (Request.perform .plain) shootingStore pre).taskMetas start days p j) ∧
      ((∀ pre, pre <+: [proposeClip] → (Trace.after (Request.perform .plain) shootingStore pre).BoardLive) ↔
        ∀ pre r, pre ++ [r] <+: [proposeClip] → r.LoadsLive .plain (Trace.after (Request.perform .plain) shootingStore pre)) :=
  board_live_iff .plain shootingStore shootingStore_regular shootingStore_boardLive [proposeClip] (by
    intro r hr
    obtain rfl := List.mem_singleton.mp hr
    exact (by decide : shootingStore.knows (some 1)))

/-- After one edit the day is booked twice, once for the proposal that was replaced. -/
theorem retired_clip_on_board : (∀ r ∈ editedOnce, shootingStore.knows r.actorId) ∧
    ¬ ∀ pre, pre <+: editedOnce → (Trace.after (Request.perform .plain) shootingStore pre).BoardLive := by
  refine ⟨editedOnce_knows, fun h => ?_⟩
  have hday := h editedOnce List.prefix_rfl 1 14 1 0
  have hbooked : personDayHours (Trace.after (Request.perform .plain) shootingStore editedOnce).taskMetas 1 14 1 0 = 16 := by
    decide +kernel
  have hlive : personDayHours (Trace.after (Request.perform .plain) shootingStore editedOnce).liveTaskMetas 1 14 1 0 = 8 := by
    decide +kernel
  rw [hbooked, hlive] at hday
  revert hday
  decide

end Shooting

end Planner
