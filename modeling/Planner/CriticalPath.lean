import Planner.Greedy

/-! Backward mode: the earliest finish of the longest dependency chain, with
resource contention left out. -/

namespace Planner

def backwardBufferWorkingDays : Nat := 2

/-- Days of one task at the smallest capacity among its allowed people. -/
def durationDays (task : Task) (peopleById : OrdDict UUID Person) : ℕ+ :=
  let caps := task.allowedPersonIds.filterMap fun pid => (peopleById.get? pid).map Person.capacityH
  let cap := max (caps.min?.getD 8) 1
  ⟨(max 1 (-(-task.durationHours / cap))).toNat, by omega⟩

/-- The `for tid in nx.topological_sort(g)` loop: finish days so far and their maximum. -/
def longestChain (graph : Dag) (tasksById : OrdDict UUID Task) (peopleById : OrdDict UUID Person) :
    List UUID → OrdDict UUID Nat → Nat → Except PlanError Nat
  | [], _, maxEf => .ok maxEf
  | tid :: rest, efDays, maxEf =>
    match tasksById.get? tid with
    | none => .error .missingTask
    | some task =>
      let base := ((graph.predecessors tid).map fun p => efDays.getD p 0).foldr max 0
      let ef := base + durationDays task peopleById
      longestChain graph tasksById peopleById rest (efDays.insert tid ef) (max maxEf ef)

namespace GreedySolver

def criticalPathEnd (s : GreedySolver) (req : PlanRequest) (start : Date) : Except PlanError Date :=
  let graph := buildDag req.tasks req.dependencies
  match s.topologicalSort.run graph with
  | none => .error .networkXUnfeasible
  | some order =>
    (longestChain graph (tasksById req) (peopleById req) order .empty 0).map fun maxEf =>
      if h : 0 < maxEf then nthWorkingDay s.calendar start ⟨maxEf, h⟩
      else firstWorkingDay s.calendar start

/-- The date shown to the manager: the raw finish plus a buffer. -/
def presentedEarliestEnd (s : GreedySolver) (req : PlanRequest) (start : Date) :
    Except PlanError Date :=
  (s.criticalPathEnd req start).map s.calendar.nextWorkingDay^[backwardBufferWorkingDays]

end GreedySolver

end Planner
