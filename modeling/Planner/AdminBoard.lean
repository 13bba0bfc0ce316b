import Mathlib.Algebra.BigOperators.Group.List.Basic
import Mathlib.Algebra.Order.Floor.Ring
import Mathlib.Data.Rat.Floor
import Planner.TaskMetas

/-! The board of the administrators: the schedule, the calendar and the load of the
people, all of them from the rows of the tasks. -/

namespace Planner

/-- Half a working day. -/
def slotHours : Int := 4

/-- A slot that is begun is occupied. -/
def hoursToSlots (hours : Rat) : Int :=
  if hours ≤ 0 then 0 else ⌈hours / slotHours⌉

/-- `round`: halves go to the even neighbour. -/
def roundHalfEven (x : Rat) : Int :=
  if x - ⌊x⌋ < 1 / 2 then ⌊x⌋
  else if 1 / 2 < x - ⌊x⌋ then ⌊x⌋ + 1
  else if ⌊x⌋ % 2 = 0 then ⌊x⌋ else ⌊x⌋ + 1

structure ScheduleRow where
  taskId : UUID
  projectTitle : String
  taskName : String
  assigneeName : String
  assigneeId : Option UUID
  deadline : Option Date
  slots : Int
  status : TaskStatus
  deriving DecidableEq, Repr

structure CalendarRow where
  personName : String
  cells : List String
  deriving DecidableEq, Repr

structure LoadRow where
  name : String
  capacitySlots : Int
  slots : List Int
  overloaded : List Bool
  free : List Int
  pct : Int
  deriving DecidableEq, Repr

structure Board where
  days : List Date
  schedule : List ScheduleRow
  calendar : List CalendarRow
  loadRows : List LoadRow
  totals : List Int
  deriving DecidableEq, Repr

/-- The days from one to the other, or the one that is known. -/
def daySpan (start finish : Option Date) : List Date :=
  match start, finish with
  | some start, some finish => if start ≤ finish then List.range' start (finish - start + 1) else [finish]
  | none, some finish => [finish]
  | some start, none => [start]
  | none, none => []

/-- Calendar days a task occupies. -/
def taskSpan (task : TaskMeta) : List Date := daySpan task.startDate (task.endDate.or task.deadline)

def dayList (start : Date) (days : Int) : List Date := List.range' start days.toNat

def dayIndex (start : Date) (days : Int) : OrdDict Date Nat := .ofList (dayList start days).zipIdx

/-- What the loop over the tasks fills in: hours by person and day, names by name and day. -/
structure DayCells where
  personDayH : OrdDict (UUID × Nat) Rat := .empty
  calCells : OrdDict (String × Nat) (List String) := .empty

namespace DayCells

def addDay (index : OrdDict Date Nat) (t : TaskMeta) (perDayH : Rat) (cells : DayCells) (d : Date) : DayCells :=
  match index.get? d with
  | none => cells
  | some j =>
    { calCells :=
        match t.assigneeName with
        | some name =>
          if name = "" then cells.calCells
          else cells.calCells.insert (name, j) (cells.calCells.getD (name, j) [] ++ [t.taskName])
        | none => cells.calCells
      personDayH :=
        match t.assigneeId with
        | some id => cells.personDayH.insert (id, j) (cells.personDayH.getD (id, j) 0 + perDayH)
        | none => cells.personDayH }

def addTask (index : OrdDict Date Nat) (cells : DayCells) (t : TaskMeta) : DayCells :=
  let span := taskSpan t
  let perDayH : Rat := if span = [] then 0 else t.durationHours / span.length
  span.foldl (addDay index t perDayH) cells

def fill (tasks : List TaskMeta) (start : Date) (days : Int) : DayCells :=
  tasks.foldl (addTask (dayIndex start days)) {}

end DayCells

def TaskMeta.scheduleRow (t : TaskMeta) : ScheduleRow where
  taskId := t.taskId
  projectTitle := t.projectTitle
  taskName := t.taskName
  assigneeName := if t.assigneeName.getD "" = "" then "—" else t.assigneeName.getD ""
  assigneeId := t.assigneeId
  deadline := t.deadline
  slots := hoursToSlots t.durationHours
  status := t.status

namespace ScheduleRow

/-- `date.max` where there is none. -/
def due (row : ScheduleRow) : Date := row.deadline.getD (Date.ofYmd 9999 12 31)

/-- Comparison of the sort keys. -/
def NotAfter (a b : ScheduleRow) : Prop :=
  a.due < b.due ∨ a.due = b.due ∧ (a.projectTitle < b.projectTitle ∨ a.projectTitle = b.projectTitle ∧ a.taskName ≤ b.taskName)

instance (a b : ScheduleRow) : Decidable (a.NotAfter b) := inferInstanceAs (Decidable (_ ∨ _))

end ScheduleRow

namespace AdminBoard

/-- `_calendar` -/
def calendar (people : List PersonRecord) (calCells : OrdDict (String × Nat) (List String)) (days : Int) : List CalendarRow :=
  people.map fun p => ⟨p.name, (List.range days.toNat).map fun j => ", ".intercalate (calCells.getD (p.name, j) [])⟩

def loadSlots (personDayH : OrdDict (UUID × Nat) Rat) (days : Int) (p : PersonRecord) : List Int :=
  (List.range days.toNat).map fun j => hoursToSlots (personDayH.getD (p.id, j) 0)

def loadRow (personDayH : OrdDict (UUID × Nat) Rat) (days : Int) (p : PersonRecord) : LoadRow :=
  let cap := hoursToSlots p.capacityH
  let slots := loadSlots personDayH days p
  let available := cap * days
  { name := p.name
    capacitySlots := cap
    slots := slots
    overloaded := slots.map fun s => decide (cap < s)
    free := slots.map fun s => max (cap - s) 0
    pct := if available = 0 then 0 else roundHalfEven (slots.sum / available * 100) }

/-- `_load` -/
def load (people : List PersonRecord) (personDayH : OrdDict (UUID × Nat) Rat) (days : Int) : List LoadRow × List Int :=
  (people.map (loadRow personDayH days),
    people.foldl (fun totals p => List.zipWith (· + ·) totals (loadSlots personDayH days p)) (List.replicate days.toNat 0))

def build (tasks : List TaskMeta) (people : List PersonRecord) (start : Date) (days : Int) : Board :=
  let cells := DayCells.fill tasks start days
  let (loadRows, totals) := load people cells.personDayH days
  { days := dayList start days
    schedule := (tasks.map TaskMeta.scheduleRow).insertionSort ScheduleRow.NotAfter
    calendar := calendar people cells.calCells days
    loadRows := loadRows
    totals := totals }

end AdminBoard

/-- The window of the web pages: two weeks from today. -/
def defaultDays : Int := 14

/-- `_build_board` -/
def buildBoard (today : Date) : UseCase (Board × List PersonRecord) := do
  let tasks ← Repo.listTaskMetas
  let people ← Repo.listPeople
  pure (AdminBoard.build tasks people today defaultDays, people)

/-- The person's hours on the day with that number, as the load counts them. -/
def personDayHours (tasks : List TaskMeta) (start : Date) (days : Int) (p : UUID) (j : Nat) : Rat :=
  (DayCells.fill tasks start days).personDayH.getD (p, j) 0

/-- The task's share for the person and the day. -/
def TaskMeta.share (t : TaskMeta) (p : UUID) (d : Date) : Rat :=
  if t.assigneeId = some p ∧ d ∈ taskSpan t then t.durationHours / (taskSpan t).length else 0

/-- The person's hours on a day, over all tasks. -/
def sharesOn (tasks : List TaskMeta) (p : UUID) (d : Date) : Rat := (tasks.map fun t => t.share p d).sum

section Hours

theorem daySpan_nodup (start finish : Option Date) : (daySpan start finish).Nodup := by
  unfold daySpan
  split
  · split
    · exact List.nodup_range' ..
    · exact List.nodup_singleton _
  · exact List.nodup_singleton _
  · exact List.nodup_singleton _
  · exact List.nodup_nil

theorem dayIndex_get? (start : Date) (days : Int) (d : Date) (j : Nat) :
    (dayIndex start days).get? d = some j ↔ j < days.toNat ∧ d = start + j := by
  have hkeys : ((dayList start days).zipIdx.map Prod.fst).Nodup := by
    rw [List.zipIdx_map_fst]
    exact List.nodup_range' ..
  have hmem : (d, j) ∈ (dayList start days).zipIdx ↔ j < days.toNat ∧ d = start + j := by
    rw [List.mk_mem_zipIdx_iff_getElem?, dayList, List.getElem?_eq_some_iff]
    constructor
    · rintro ⟨hj, he⟩
      rw [List.length_range'] at hj
      rw [List.getElem_range', Nat.one_mul] at he
      exact ⟨hj, he.symm⟩
    · rintro ⟨hj, rfl⟩
      refine ⟨by rw [List.length_range']; exact hj, ?_⟩
      rw [List.getElem_range', Nat.one_mul]
  rw [← hmem]
  exact ⟨fun h => OrdDict.mem_of_get?_ofList h, fun h => OrdDict.get?_ofList_of_mem hkeys h⟩

namespace DayCells

variable (index : OrdDict Date Nat) (t : TaskMeta) (cells : DayCells) (p : UUID) (j : Nat)

theorem getD_addDay (h : Rat) (d : Date) :
    (addDay index t h cells d).personDayH.getD (p, j) 0 =
      cells.personDayH.getD (p, j) 0 + if t.assigneeId = some p ∧ index.get? d = some j then h else 0 := by
  unfold addDay
  cases hd : index.get? d with
  | none => simp
  | some i =>
    cases ht : t.assigneeId with
    | none => simp
    | some q =>
      simp only [OrdDict.getD, OrdDict.get?_insert, Prod.mk.injEq, Option.some.injEq]
      by_cases hk : p = q ∧ j = i
      · obtain ⟨rfl, rfl⟩ := hk
        simp
      · have hk' : ¬ (q = p ∧ i = j) := fun h => hk ⟨h.1.symm, h.2.symm⟩
        rw [if_neg hk, if_neg hk', add_zero]

theorem getD_addDays (h : Rat) (span : List Date) :
    (span.foldl (addDay index t h) cells).personDayH.getD (p, j) 0 = cells.personDayH.getD (p, j) 0 +
      (span.map fun d => if t.assigneeId = some p ∧ index.get? d = some j then h else 0).sum := by
  induction span generalizing cells with
  | nil => simp
  | cons d span ih => rw [List.foldl_cons, ih, getD_addDay, List.map_cons, List.sum_cons, add_assoc]

end DayCells

/-- Nothing occurs twice, so at most one share is added. -/
theorem sum_map_once {α : Type} [DecidableEq α] {l : List α} (hl : l.Nodup) (P : Prop) [Decidable P] (a : α) (h : Rat) :
    (l.map fun b => if P ∧ b = a then h else 0).sum = if P ∧ a ∈ l then h else 0 := by
  induction l with
  | nil => simp
  | cons b l ih =>
    obtain ⟨hb, hl⟩ := List.nodup_cons.mp hl
    rw [List.map_cons, List.sum_cons, ih hl]
    by_cases hba : b = a
    · subst hba
      simp [hb]
    · have hab : a ≠ b := Ne.symm hba
      simp [hba, hab]

namespace DayCells

theorem getD_addTask (start : Date) (days : Int) (cells : DayCells) (t : TaskMeta) (p : UUID) (j : Nat) :
    (addTask (dayIndex start days) cells t).personDayH.getD (p, j) 0 =
      cells.personDayH.getD (p, j) 0 + if j < days.toNat then t.share p (start + j) else 0 := by
  rw [addTask, getD_addDays]
  congr 1
  simp only [dayIndex_get?]
  by_cases hj : j < days.toNat
  · simp only [hj, true_and]
    rw [sum_map_once (show (taskSpan t).Nodup from daySpan_nodup _ _), TaskMeta.share, if_true]
    by_cases hd : start + j ∈ taskSpan t
    · rw [if_neg (List.ne_nil_of_mem hd)]
    · rw [if_neg fun h => hd h.2, if_neg fun h => hd h.2]
  · simp [hj]

end DayCells

/-- The hours of the loop are the sums of the shares, for the days that are shown. -/
theorem personDayHours_eq (tasks : List TaskMeta) (start : Date) (days : Int) (p : UUID) (j : Nat) :
    personDayHours tasks start days p j = if j < days.toNat then sharesOn tasks p (start + j) else 0 := by
  have hfold : ∀ (cells : DayCells), (tasks.foldl (DayCells.addTask (dayIndex start days)) cells).personDayH.getD (p, j) 0 =
      cells.personDayH.getD (p, j) 0 + if j < days.toNat then sharesOn tasks p (start + j) else 0 := by
    induction tasks with
    | nil => simp [sharesOn]
    | cons t tasks ih =>
      intro cells
      have hcons : sharesOn (t :: tasks) p (start + j) = t.share p (start + j) + sharesOn tasks p (start + j) := by
        rw [sharesOn, sharesOn, List.map_cons, List.sum_cons]
      rw [List.foldl_cons, ih, DayCells.getD_addTask, hcons]
      split
      · rw [add_assoc]
      · rw [add_zero]
  rw [personDayHours, DayCells.fill, hfold]
  exact zero_add _

theorem AdminBoard.load_eq {tasks tasks' : List TaskMeta} {start : Date} {days : Int} (people : List PersonRecord)
    (h : ∀ p j, personDayHours tasks start days p j = personDayHours tasks' start days p j) :
    AdminBoard.load people (DayCells.fill tasks start days).personDayH days =
      AdminBoard.load people (DayCells.fill tasks' start days).personDayH days := by
  have hslots : loadSlots (DayCells.fill tasks start days).personDayH days =
      loadSlots (DayCells.fill tasks' start days).personDayH days := by
    funext p
    exact List.map_congr_left fun j _ => congrArg hoursToSlots (h p.id j)
  have hrows : loadRow (DayCells.fill tasks start days).personDayH days =
      loadRow (DayCells.fill tasks' start days).personDayH days := by
    funext p
    simp only [loadRow, hslots]
  rw [load, load, hslots, hrows]

end Hours

end Planner
