import Planner.OperationRuns

/-! The rows that the board and the tick of a finished task read: every task with its
project and one of its assignees. -/

namespace Planner

structure TaskMeta where
  taskId : UUID
  taskName : String
  projectTitle : String
  priority : String
  status : TaskStatus
  startDate : Option Date
  endDate : Option Date
  durationHours : Int
  assigneeId : Option UUID
  assigneeName : Option String
  deadline : Option Date
  deriving DecidableEq, Repr

/-- The deadline of the project comes first. -/
def TaskRow.toMeta (row : TaskRow) (id : UUID) (project : ProjectRow) (assignee : Option (UUID × String)) : TaskMeta where
  taskId := id
  taskName := row.name
  projectTitle := project.title
  priority := project.priority
  status := row.status
  startDate := row.startDate
  endDate := row.endDate
  durationHours := row.durationHours
  assigneeId := assignee.map Prod.fst
  assigneeName := assignee.map Prod.snd
  deadline := project.deadline.or row.endDate

namespace Store

variable (s : Store)

/-- The two outer joins: a task that nobody has is there once. -/
def assigneesOf (taskId : UUID) : List (Option (UUID × String)) :=
  match (s.assignments.keys.filter fun k => k.1 = taskId).map fun k => (s.people.get? k.2).map fun row => (k.2, row.name) with
  | [] => [none]
  | assignees => assignees

/-- The tasks whose project is there, by title and name. -/
def joinedTasks : List ((UUID × TaskRow) × ProjectRow) :=
  (s.tasks.entries.filterMap fun e => (s.projects.get? e.2.projectId).map fun p => (e, p)).insertionSort
    fun a b => a.2.title < b.2.title ∨ a.2.title = b.2.title ∧ a.1.2.name ≤ b.1.2.name

def taskMetas : List TaskMeta :=
  s.joinedTasks.flatMap fun j => (s.assigneesOf j.1.1).map (j.1.2.toMeta j.1.1 j.2)

end Store

/-- `list_tasks_with_meta`, as a whole. -/
def Repo.listTaskMetas : UseCase (List TaskMeta) := .read Store.taskMetas

namespace Store

variable {s : Store} {t : UUID} {row : TaskRow} {project : ProjectRow} {m : TaskMeta}

theorem mem_joinedTasks {j : (UUID × TaskRow) × ProjectRow} :
    j ∈ s.joinedTasks ↔ s.tasks.get? j.1.1 = some j.1.2 ∧ s.projects.get? j.1.2.projectId = some j.2 := by
  rw [joinedTasks, List.mem_insertionSort, List.mem_filterMap]
  constructor
  · rintro ⟨e, he, hj⟩
    obtain ⟨p, hp, rfl⟩ := Option.map_eq_some_iff.mp hj
    exact ⟨OrdDict.get?_eq_some_iff.mpr he, hp⟩
  · rintro ⟨ht, hp⟩
    exact ⟨j.1, OrdDict.get?_eq_some_iff.mp ht, Option.map_eq_some_iff.mpr ⟨j.2, hp, rfl⟩⟩

theorem assigneesOf_ne_nil (s : Store) (t : UUID) : s.assigneesOf t ≠ [] := by
  rw [assigneesOf]
  split
  · exact List.cons_ne_nil _ _
  · assumption

theorem mem_taskMetas : m ∈ s.taskMetas ↔ ∃ t row project assignee, s.tasks.get? t = some row ∧
    s.projects.get? row.projectId = some project ∧ assignee ∈ s.assigneesOf t ∧ m = row.toMeta t project assignee := by
  rw [taskMetas, List.mem_flatMap]
  constructor
  · rintro ⟨j, hj, hm⟩
    obtain ⟨assignee, hassignee, rfl⟩ := List.mem_map.mp hm
    obtain ⟨ht, hp⟩ := mem_joinedTasks.mp hj
    exact ⟨j.1.1, j.1.2, j.2, assignee, ht, hp, hassignee, rfl⟩
  · rintro ⟨t, row, project, assignee, ht, hp, hassignee, rfl⟩
    exact ⟨((t, row), project), mem_joinedTasks.mpr ⟨ht, hp⟩, List.mem_map_of_mem hassignee⟩

theorem find_taskMetas (ht : s.tasks.get? t = some row) (hp : s.projects.get? row.projectId = some project) :
    ∃ assignee, (s.taskMetas.find? fun m => m.taskId = t) = some (row.toMeta t project assignee) := by
  obtain ⟨assignee, hassignee⟩ := List.exists_mem_of_ne_nil _ (assigneesOf_ne_nil s t)
  have hthere : row.toMeta t project assignee ∈ s.taskMetas := mem_taskMetas.mpr ⟨t, row, project, assignee, ht, hp, hassignee, rfl⟩
  cases hfind : s.taskMetas.find? fun m => m.taskId = t with
  | none =>
    have hother := List.find?_eq_none.mp hfind _ hthere
    exact absurd (decide_eq_true rfl) hother
  | some m =>
    obtain ⟨t', row', project', assignee', ht', hp', -, rfl⟩ := mem_taskMetas.mp (List.mem_of_find?_eq_some hfind)
    have hid := List.find?_some hfind
    obtain rfl : t' = t := of_decide_eq_true hid
    obtain rfl := Option.some.inj (ht.symm.trans ht')
    obtain rfl := Option.some.inj (hp.symm.trans hp')
    exact ⟨assignee', rfl⟩

theorem length_assigneesOf (s : Store) (t : UUID) :
    (s.assigneesOf t).length = max 1 (s.assignments.keys.countP fun k => k.1 = t) := by
  have hcount : ((s.assignments.keys.filter fun k => k.1 = t).map
      fun k => (s.people.get? k.2).map fun row => (k.2, row.name)).length = s.assignments.keys.countP fun k => k.1 = t := by
    rw [List.length_map, List.countP_eq_length_filter]
  rw [← hcount, assigneesOf]
  split
  · rename_i hnil
    rw [hnil]
    rfl
  · rename_i hne
    exact (Nat.max_eq_right (List.length_pos_of_ne_nil hne)).symm

theorem map_joinedTasks (h : ∀ row ∈ s.tasks.values, row.projectId ∈ s.projects.keys) :
    s.joinedTasks.map Prod.fst = s.tasks.entries.insertionSort fun a b =>
      ((s.projects.get? a.2.projectId).map ProjectRow.title).getD "" < ((s.projects.get? b.2.projectId).map ProjectRow.title).getD "" ∨
        ((s.projects.get? a.2.projectId).map ProjectRow.title).getD "" =
          ((s.projects.get? b.2.projectId).map ProjectRow.title).getD "" ∧ a.2.name ≤ b.2.name := by
  have hall : (s.tasks.entries.filterMap fun e => (s.projects.get? e.2.projectId).map fun p => (e, p)).map Prod.fst =
      s.tasks.entries := by
    rw [List.map_filterMap]
    refine (List.filterMap_congr fun e he => ?_).trans List.filterMap_some
    obtain ⟨p, hp⟩ := Option.isSome_iff_exists.mp (OrdDict.mem_keys.mp (h e.2 (List.mem_map_of_mem he)))
    rw [hp]
    rfl
  have htitle : ∀ j ∈ s.tasks.entries.filterMap fun e => (s.projects.get? e.2.projectId).map fun p => (e, p),
      ((s.projects.get? j.1.2.projectId).map ProjectRow.title).getD "" = j.2.title := by
    intro j hj
    obtain ⟨e, -, he⟩ := List.mem_filterMap.mp hj
    obtain ⟨p, hp, rfl⟩ := Option.map_eq_some_iff.mp he
    dsimp only
    rw [hp]
    rfl
  rw [joinedTasks]
  nth_rewrite 2 [← hall]
  refine List.map_insertionSort _ _ _ _ fun a ha b hb => ?_
  rw [htitle a ha, htitle b hb]

/-- The assignment of a task by its name sees the same rows. -/
theorem tasksWithMeta_eq (h : ∀ row ∈ s.tasks.values, row.projectId ∈ s.projects.keys) :
    s.tasksWithMeta = s.taskMetas.map fun m => (m.taskId, m.taskName) := by
  rw [tasksWithMeta, taskMetas, List.map_flatMap]
  dsimp only
  rw [← map_joinedTasks h, List.flatMap_map]
  refine List.flatMap_congr fun j _ => ?_
  rw [List.map_map, ← length_assigneesOf]
  exact List.map_const'.symm

end Store

end Planner
