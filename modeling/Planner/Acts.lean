import Planner.Confirmation
import Planner.EditTables
import Planner.Lib.Trace
import Planner.Replan

/-! The requests that touch plans, and runs of them in any order. One lemma says
what each can leave in the tables. -/

namespace Planner

inductive Act
  | addProject (solver : GreedySolver) (intent : AddProjectIntent) (actor : Option PersonRecord)
    (people : List Person) (template : ProjectTemplate) (today : Date) (existing : List DayAllocation)
    (overrides : List DayOverride) (sink : Option ProjectSink)
  | confirm (sink : Option TaskSink) (planVersionId : UUID) (actor : Option PersonRecord)
  | markTaskDone (taskId : UUID) (actorId : Option UUID) (isAdmin : Bool) (status : String)
  | setVacation (intent : VacationIntent) (actorId : Option UUID) (isAdmin : Bool)
  | replan (solver : GreedySolver) (today : Date)
  | reassign (isAdmin : Bool) (taskId personId : FormField UUID) (actorId : Option UUID)
  | editTask (isAdmin : Bool) (taskId : UUID) (start end_ : FormField Date) (actorId : Option UUID)

namespace Act

/-- The tables after the request, whatever it answers. -/
def perform (s : Store) : Act → Store
  | .addProject solver intent actor people template today existing overrides sink =>
    ((Planner.addProject solver intent actor people template today existing overrides sink).run s).2
  | .confirm sink planVersionId actor => ((confirmPlan sink planVersionId actor).run s).2
  | .markTaskDone taskId actorId isAdmin status =>
    ((Planner.markTaskDone taskId actorId isAdmin status).run s).2
  | .setVacation intent actorId isAdmin => ((Planner.setVacation intent actorId isAdmin).run s).2
  | .replan solver today => ((buildReplanSummary solver today).run s).2
  | .reassign isAdmin taskId personId actorId =>
    ((Planner.reassign isAdmin taskId personId actorId).run s).2
  | .editTask isAdmin taskId start end_ actorId =>
    ((Planner.editTask isAdmin taskId start end_ actorId).run s).2

/-- Whom a successful reassignment gives the task to. -/
def assignee? (taskId : UUID) (s : Store) : Act → Option UUID
  | .reassign true (.value tid) (.value pid) _ =>
    if tid = taskId ∧ tid ∈ s.tasks.keys ∧ pid ∈ s.people.keys then some pid else none
  | _ => none

/-- The start a successful date edit gives the task. -/
def start? (taskId : UUID) (_ : Store) : Act → Option Date
  | .editTask true tid start end_ _ =>
    if tid = taskId ∧ start ≠ .bad ∧ end_ ≠ .bad then start.value? else none
  | _ => none

def end? (taskId : UUID) (_ : Store) : Act → Option Date
  | .editTask true tid start end_ _ =>
    if tid = taskId ∧ start ≠ .bad ∧ end_ ≠ .bad then end_.value? else none
  | _ => none

def confirms (planVersionId : UUID) : Act → Bool
  | .confirm _ v _ => v = planVersionId
  | _ => false

/-- A request that says nothing of any task. -/
structure Silent (s : Store) (act : Act) : Prop where
  assignee : ∀ t, act.assignee? t s = none
  start : ∀ t, act.start? t s = none
  end_ : ∀ t, act.end? t s = none

/-- What a request can leave behind. -/
inductive Effect (s : Store) : Act → Store → Prop
  | idle {act : Act} (hsilent : act.Silent s) (hconfirm : ∀ v, act.confirms v = true → ¬ s.IsProposed v) :
      Effect s act s
  | abandoned {solver : GreedySolver} {intent : AddProjectIntent} {actor : Option PersonRecord}
      {people : List Person} {template : ProjectTemplate} {today : Date} {existing : List DayAllocation}
      {overrides : List DayOverride} {sink : Option ProjectSink} {s' : Store} (h : Abandoned s s') :
      Effect s (.addProject solver intent actor people template today existing overrides sink) s'
  | proposed {solver : GreedySolver} {intent : AddProjectIntent} {actor : Option PersonRecord}
      {people : List Person} {template : ProjectTemplate} {today : Date} {existing : List DayAllocation}
      {overrides : List DayOverride} {sink : Option ProjectSink} {result : AddProjectResult} {s' : Store}
      (h : Proposed solver intent actor people template today existing overrides s result s') :
      Effect s (.addProject solver intent actor people template today existing overrides sink) s'
  | confirmed {sink : Option TaskSink} {v : UUID} {actor : Option PersonRecord} {s' : Store}
      (hproposed : s.IsProposed v) (h : Confirmed v s s') : Effect s (.confirm sink v actor) s'
  | marked {taskId : UUID} {actorId : Option UUID} {isAdmin : Bool} {status : String} (st : TaskStatus)
      (audit : List AuditRow) : Effect s (.markTaskDone taskId actorId isAdmin status)
        ((s.modifyTask taskId ({ · with status := st })).logged audit)
  | vacated {intent : VacationIntent} {actorId : Option UUID} {isAdmin : Bool} {s' : Store}
      (h : Vacated s s') : Effect s (.setVacation intent actorId isAdmin) s'
  | reassigned {tid pid : UUID} {actorId : Option UUID} (ht : tid ∈ s.tasks.keys)
      (hp : pid ∈ s.people.keys) (audit : List AuditRow) :
      Effect s (.reassign true (.value tid) (.value pid) actorId) ((s.reassigned tid pid).logged audit)
  | rescheduled {taskId : UUID} {start end_ : FormField Date} {actorId : Option UUID}
      (hs : start ≠ .bad) (he : end_ ≠ .bad) (audit : List AuditRow) :
      Effect s (.editTask true taskId start end_ actorId)
        ((s.rescheduled taskId start.value? end_.value?).logged audit)

theorem effect (act : Act) (s : Store) : act.Effect s (act.perform s) := by
  cases act with
  | addProject solver intent actor people template today existing overrides sink =>
    rcases addProject_cases (Prod.mk.eta (p := (Planner.addProject solver intent actor people template
      today existing overrides sink).run s)).symm with ⟨-, -, h⟩ | ⟨result, -, h⟩
    · exact .abandoned h
    · exact .proposed h
  | confirm sink v actor =>
    rcases confirmPlan_cases (Prod.mk.eta (p := (confirmPlan sink v actor).run s)).symm with
      ⟨hn, he, -⟩ | ⟨hp, h, -⟩
    · rw [perform, he]
      refine .idle ⟨fun _ => rfl, fun _ => rfl, fun _ => rfl⟩ fun w hw => ?_
      obtain rfl := of_decide_eq_true hw
      exact hn
    · exact .confirmed hp h
  | markTaskDone taskId actorId isAdmin status =>
    rcases markTaskDone_cases taskId actorId isAdmin status s with he | ⟨st, audit, -, he⟩
    · rw [perform, he]
      exact .idle ⟨fun _ => rfl, fun _ => rfl, fun _ => rfl⟩ nofun
    · rw [perform, he]
      exact .marked st audit
  | setVacation intent actorId isAdmin => exact .vacated (setVacation_vacated intent actorId isAdmin s)
  | replan solver today =>
    rw [perform, (buildReplanSummary_cases (Prod.mk.eta (p := (buildReplanSummary solver today).run
      s)).symm).1]
    exact .idle ⟨fun _ => rfl, fun _ => rfl, fun _ => rfl⟩ nofun
  | reassign isAdmin taskId personId actorId =>
    rcases reassign_cases isAdmin taskId personId actorId s with
      ⟨tid, pid, audit, ⟨rfl, rfl, rfl, ht, hp⟩, he⟩ | ⟨hnone, he⟩
    · rw [perform, he]
      exact .reassigned ht hp audit
    · rw [perform, he]
      refine .idle ⟨fun t => ?_, fun _ => rfl, fun _ => rfl⟩ nofun
      unfold assignee?
      split
      · rename_i tid pid actor hact
        cases hact
        exact if_neg fun h => hnone tid pid ⟨rfl, rfl, rfl, h.2⟩
      · rfl
  | editTask isAdmin taskId start end_ actorId =>
    rcases editTask_cases isAdmin taskId start end_ actorId s with
      ⟨audit, ⟨rfl, hs, he⟩, hrun⟩ | ⟨hnone, hrun⟩
    · rw [perform, hrun]
      exact .rescheduled hs he audit
    · rw [perform, hrun]
      have hdates : ∀ {t : UUID} (d : Option Date), isAdmin = true →
          (if taskId = t ∧ start ≠ .bad ∧ end_ ≠ .bad then d else none) = none :=
        fun _ hadmin => if_neg fun h => hnone ⟨hadmin, h.2⟩
      refine .idle ⟨fun _ => rfl, fun t => ?_, fun t => ?_⟩ nofun
      · cases isAdmin with
        | false => rfl
        | true => exact hdates _ rfl
      · cases isAdmin with
        | false => rfl
        | true => exact hdates _ rfl

end Act

/-- The store after a run of requests, one after the other. -/
def Store.after (s : Store) (acts : List Act) : Store := Trace.after Act.perform s acts

theorem Store.after_snoc (s : Store) (acts : List Act) (act : Act) :
    s.after (acts ++ [act]) = act.perform (s.after acts) := Trace.after_snoc _ _ _ _

end Planner
