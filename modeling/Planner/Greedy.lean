import Planner.Allocate

/-! The greedy forward scheduler: tasks in topological order, each at the
earliest slot its dependencies and its executor's capacity allow. -/

namespace Planner

/-- `networkx.topological_sort`, known by its contract: an order of all nodes
after their predecessors, and one for every acyclic graph. -/
structure TopologicalSort where
  run : Dag → Option (List UUID)
  sound : ∀ g order, run g = some order → g.IsTopologicalOrder order
  complete : ∀ g, g.Acyclic → ∃ order, run g = some order

/-- Generation after generation, in the order in which nodes become free. -/
def generationSort : TopologicalSort where
  run := EdgeGraph.topologicalSort
  sound _ _ := EdgeGraph.topologicalSort_sound
  complete _ := EdgeGraph.topologicalSort_complete

structure GreedySolver where
  calendar : WorkingCalendar
  topologicalSort : TopologicalSort

/-- How far ahead the search looks. -/
def horizonDays : Nat := 365

/-- Whole working days at `capacityH` a day; without a norm, the raw hours. -/
def hoursToWorkingDays (hours capacityH : Int) : Int :=
  if hours ≤ 0 then 0 else if capacityH ≤ 0 then hours else -(-hours / capacityH)

def overloadFlags (idx : CapacityIndex) : List RiskFlag :=
  idx.overloads.map fun (pid, day, used, base) =>
    { kind := .overload
      message := "≈" ++ toString (hoursToWorkingDays used base) ++
        " раб. дн. нагрузки на 1 день, " ++ day.isoformat ++ "."
      personId := some pid
      day := some day }

structure PlanState where
  idx : CapacityIndex
  assignments : OrdDict UUID Assignment

/-- The dates and the person a done task is held to, if it is immovable. -/
def Task.pinned? (t : Task) : Option Assignment :=
  match t.status, t.fixedStart, t.fixedAssigneeId with
  | .done, some start, some assignee =>
    some ⟨t.id, assignee, start, t.fixedEnd.getD start, [⟨assignee, start, t.durationHours⟩]⟩
  | _, _, _ => none

/-- Immovable tasks occupy capacity before anything else is placed. -/
def pinTask (st : PlanState) (t : Task) : PlanState :=
  match t.pinned? with
  | some a => ⟨st.idx.occupy a.allocations, st.assignments.insert t.id a⟩
  | none => st

/-- Lexicographic `(start, end) < (start', end')`. -/
def Placement.Before (p q : Placement) : Prop :=
  p.startDate < q.startDate ∨ p.startDate = q.startDate ∧ p.endDate < q.endDate

instance (p q : Placement) : Decidable (p.Before q) := inferInstanceAs (Decidable (_ ∨ _))

/-- The race between candidates in priority order; ties keep the first. -/
def bestCandidate (task : Task) (earliest : Date) (cal : WorkingCalendar) (limit : Date) :
    List Person → Option (Placement × Person) → CapacityIndex →
      Except PlanError (Option (Placement × Person) × CapacityIndex)
  | [], best, idx => .ok (best, idx)
  | cand :: rest, best, idx =>
    match allocate task cand earliest cal idx limit with
    | .error e => .error e
    | .ok (p, idx) =>
      match best with
      | none => bestCandidate task earliest cal limit rest (some (p, cand)) idx
      | some (q, person) =>
        if p.Before q then bestCandidate task earliest cal limit rest (some (p, cand)) idx
        else bestCandidate task earliest cal limit rest (some (q, person)) idx

/-- Window, required pair, or the best single candidate. -/
def placeOn (task : Task) (earliest : Date) (allowed : List Person) (cal : WorkingCalendar)
    (idx : CapacityIndex) (limit : Date) : Except PlanError (Placement × Person × CapacityIndex) :=
  if task.durationIsWindow then
    match allowed with
    | [] => .error .noCandidate
    | person :: _ => .ok (allocateWindow task earliest cal, person, idx)
  else
    match task.pairMode, allowed with
    | .required, p1 :: p2 :: _ =>
      let (p, idx) := allocatePair task p1 p2 earliest cal idx limit
      .ok (p, p1, idx)
    | _, _ =>
      match bestCandidate task earliest cal limit allowed none idx with
      | .error e => .error e
      | .ok (none, _) => .error .noCandidate
      | .ok (some (p, person), idx) => .ok (p, person, idx)

def tasksById (req : PlanRequest) : OrdDict UUID Task :=
  OrdDict.ofList (req.tasks.map fun t => (t.id, t))

def peopleById (req : PlanRequest) : OrdDict UUID Person :=
  OrdDict.ofList (req.people.map fun p => (p.id, p))

/-- The binding restricted to the pool, or the whole pool when nothing is left of it. -/
def allowedPeople (req : PlanRequest) (task : Task) : List Person :=
  match task.allowedPersonIds.filterMap fun pid => (peopleById req).get? pid with
  | [] => req.people
  | bound => bound

def horizonLimit (req : PlanRequest) : Date := req.horizonStart + horizonDays

/-- One turn of the placement loop. -/
def placeTask (cal : WorkingCalendar) (req : PlanRequest) (graph : Dag) (st : PlanState)
    (tid : UUID) : Except PlanError PlanState :=
  if st.assignments.contains tid then .ok st
  else
    match (tasksById req).get? tid with
    | none => .ok st
    | some task =>
      let earliest := earliestStart task graph st.assignments req.horizonStart cal
      match placeOn task earliest (allowedPeople req task) cal st.idx (horizonLimit req) with
      | .error e => .error e
      | .ok (p, person, idx) =>
        .ok ⟨idx.occupy p.allocs,
          st.assignments.insert tid ⟨tid, person.id, p.startDate, p.endDate, p.allocs⟩⟩

/-- Capacity with the existing load, and the immovable tasks in place. -/
def startState (cal : WorkingCalendar) (req : PlanRequest) : PlanState :=
  req.tasks.foldl pinTask
    ⟨.init req.people cal req.dayOverrides req.existingAllocations, OrdDict.empty⟩

def placeAll (cal : WorkingCalendar) (req : PlanRequest) (graph : Dag) :
    List UUID → PlanState → Except PlanError PlanState
  | [], st => .ok st
  | tid :: rest, st =>
    match placeTask cal req graph st tid with
    | .error e => .error e
    | .ok st => placeAll cal req graph rest st

def planResult (req : PlanRequest) (order : List UUID) (st : PlanState) : PlanResult :=
  let endDate := (st.assignments.values.map Assignment.endDate).max?
  let missed := match req.deadline, endDate with
    | some deadline, some e =>
      if deadline < e then
        [{ kind := .deadlineMissed
           message := "Plan ends " ++ e.isoformat ++ ", deadline " ++ deadline.isoformat ++ "." }]
      else []
    | _, _ => []
  { assignments := order.filterMap st.assignments.get?
    risks := overloadFlags st.idx ++ missed
    endDate := endDate }

namespace GreedySolver

def plan (s : GreedySolver) (req : PlanRequest) : Except PlanError PlanResult :=
  if !req.tasks.isEmpty && req.people.isEmpty then .error .noPeople
  else
    let graph := buildDag req.tasks req.dependencies
    match s.topologicalSort.run graph with
    | none => .error .networkXUnfeasible
    | some order =>
      match placeAll s.calendar req graph order (startState s.calendar req) with
      | .error e => .error e
      | .ok st => .ok (planResult req order st)

/-- Monday to Friday, generation by generation. -/
def onWeekdays : GreedySolver := ⟨WeekendCalendar.toWorkingCalendar ⟨[]⟩, generationSort⟩

end GreedySolver

end Planner
