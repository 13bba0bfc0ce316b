import Planner.Calendar
import Planner.Lib.EdgeGraph

/-! The value objects the solver consumes and returns. -/

namespace Planner

abbrev UUID := Nat

/-- Link rows are told apart by both ids. -/
instance : LawfulBEq (UUID × UUID) := Prod.instLawfulBEq

inductive LinkType
  | FS
  | SS
  deriving DecidableEq, Repr

inductive PairMode
  | none
  | optional
  | required
  deriving DecidableEq, Repr

inductive TaskStatus
  | notDone
  | done
  | preliminary
  | confirmed
  deriving DecidableEq, Repr

inductive TaskSource
  | botFormed
  | template
  deriving DecidableEq, Repr

/-- `datetime.time`, without seconds. -/
structure TimeOfDay where
  hour : Nat
  minute : Nat
  hour_lt : hour < 24
  minute_lt : minute < 60
  deriving DecidableEq, Repr

structure Person where
  id : UUID
  name : String
  capacityH : Int := 8
  deriving DecidableEq, Repr

/-- `allowedPersonIds` is the hard executor binding in priority order. A `done`
task with a fixed start and assignee is immovable. -/
structure Task where
  id : UUID
  name : String
  durationHours : Int
  allowedPersonIds : List UUID
  projectId : Option UUID := none
  requiredSkills : List String := []
  isSplittable : Bool := false
  pairMode : PairMode := .none
  durationIsWindow : Bool := false
  status : TaskStatus := .notDone
  source : TaskSource := .botFormed
  fixedStart : Option Date := none
  fixedEnd : Option Date := none
  fixedAssigneeId : Option UUID := none
  deriving DecidableEq, Repr

/-- An edge `dependsOnId` → `taskId`; a positive lag delays the successor by
that many working days. -/
structure Dependency where
  taskId : UUID
  dependsOnId : UUID
  linkType : LinkType := .FS
  lagWorkingDays : Int := 0
  deriving DecidableEq, Repr

/-- Capacity of one person on one day; `0` is a day off. -/
structure DayOverride where
  personId : UUID
  day : Date
  capacityH : Int
  deriving DecidableEq, Repr

structure DayAllocation where
  personId : UUID
  day : Date
  hours : Int
  deriving DecidableEq, Repr

structure Assignment where
  taskId : UUID
  personId : UUID
  startDate : Date
  endDate : Date
  allocations : List DayAllocation
  deriving DecidableEq, Repr

inductive RiskKind
  | overload
  | deadlineMissed
  deriving DecidableEq, Repr

structure RiskFlag where
  kind : RiskKind
  message : String
  taskId : Option UUID := none
  personId : Option UUID := none
  day : Option Date := none
  deriving DecidableEq, Repr

structure PlanRequest where
  people : List Person
  tasks : List Task
  dependencies : List Dependency
  horizonStart : Date
  dayOverrides : List DayOverride := []
  existingAllocations : List DayAllocation := []
  deadline : Option Date := none
  deriving DecidableEq, Repr

structure PlanResult where
  assignments : List Assignment
  risks : List RiskFlag := []
  endDate : Option Date := none
  deriving DecidableEq, Repr

def PlanResult.overloads (p : PlanResult) : List RiskFlag :=
  p.risks.filter fun r => r.kind = .overload

/-- Hours that a list of allocations puts on a person's day. -/
def hoursOn (allocs : List DayAllocation) (personId : UUID) (day : Date) : Int :=
  ((allocs.filter fun a => a.personId = personId ∧ a.day = day).map DayAllocation.hours).sum

@[simp] theorem hoursOn_nil (p : UUID) (d : Date) : hoursOn [] p d = 0 := rfl

theorem hoursOn_cons (a : DayAllocation) (as : List DayAllocation) (p : UUID) (d : Date) :
    hoursOn (a :: as) p d = (if a.personId = p ∧ a.day = d then a.hours else 0) + hoursOn as p d := by
  by_cases h : a.personId = p ∧ a.day = d <;> simp [hoursOn, h]

@[simp] theorem hoursOn_append (as bs : List DayAllocation) (p : UUID) (d : Date) :
    hoursOn (as ++ bs) p d = hoursOn as p d + hoursOn bs p d := by
  simp [hoursOn]

theorem hoursOn_perm {as bs : List DayAllocation} (h : as.Perm bs) (p : UUID) (d : Date) :
    hoursOn as p d = hoursOn bs p d := by
  induction h with
  | nil => rfl
  | cons a _ ih => rw [hoursOn_cons, hoursOn_cons, ih]
  | swap a b l => simp only [hoursOn_cons, Int.add_left_comm]
  | trans _ _ ih₁ ih₂ => exact ih₁.trans ih₂

theorem hoursOn_eq_zero {as : List DayAllocation} {p : UUID} {d : Date}
    (h : ∀ a ∈ as, ¬ (a.personId = p ∧ a.day = d)) : hoursOn as p d = 0 := by
  have he : as.filter (fun a => a.personId = p ∧ a.day = d) = [] :=
    List.filter_eq_nil_iff.mpr fun a ha => by simpa using h a ha
  rw [hoursOn, he]
  rfl

theorem hoursOn_nonneg {as : List DayAllocation} (h : ∀ a ∈ as, 0 ≤ a.hours) (p : UUID)
    (d : Date) : 0 ≤ hoursOn as p d := by
  induction as with
  | nil => simp
  | cons a as ih =>
    have ha := h a (by simp)
    have hs := ih fun b hb => h b (List.mem_cons_of_mem _ hb)
    rw [hoursOn_cons]
    split <;> omega

end Planner
