import Planner.AddProject
import Planner.Edits
import Planner.IsoDate

/-! What a message may ask for. A captured task carries the bounds of its fields. -/

namespace Planner

structure CaptureTaskIntent where
  taskTitle : String
  assigneeNames : List String
  projectName : Option String
  deadline : Option Date
  timeStart : Option TimeOfDay
  estHours : Option Int
  requiredSkills : List String
  title_length : 1 ≤ taskTitle.length ∧ taskTitle.length ≤ 200
  assignees_length : assigneeNames.length ≤ 10
  project_length : ∀ name ∈ projectName, name.length ≤ 200
  skills_length : requiredSkills.length ≤ 20
  deriving DecidableEq, Repr

inductive WhatIfOperation
  | shiftDeadline
  | addPerson
  | switchToLite
  | dropProject
  deriving DecidableEq, Repr

structure WhatIfIntent where
  operation : WhatIfOperation
  projectTitle : Option String
  newDeadline : Option Date := none
  personName : Option String := none
  deriving DecidableEq, Repr

inductive Intent
  | addProject (intent : AddProjectIntent)
  | load (personName : Option String)
  | whatIf (intent : WhatIfIntent)
  | vacation (intent : VacationIntent)
  | confirm (planVersionId : Option UUID)
  | assign (taskRef personName : String)
  | captureTask (intent : CaptureTaskIntent)
  | clarify (question : Option String)
  deriving DecidableEq, Repr

/-- What reading a message may raise. -/
inductive ParseError
  /-- A field of an intent violates its bounds. -/
  | validation
  /-- There is no such date or time. -/
  | value
  deriving DecidableEq, Repr

def dateOf (year month day : Nat) : Except ParseError Date :=
  match Date.ofYmd? year month day with
  | some d => .ok d
  | none => .error .value

def timeOf (hour minute : Nat) : Except ParseError TimeOfDay :=
  if h : hour < 24 ∧ minute < 60 then .ok ⟨hour, minute, h.1, h.2⟩ else .error .value

/-- The fields as they come, without their bounds. -/
structure CaptureFields where
  taskTitle : String
  assigneeNames : List String := []
  projectName : Option String := none
  deadline : Option Date := none
  timeStart : Option TimeOfDay := none
  estHours : Option Int := none
  requiredSkills : List String := []
  deriving DecidableEq, Repr

/-- The `Field` constraints of the model. -/
def CaptureFields.Valid (f : CaptureFields) : Prop :=
  (1 ≤ f.taskTitle.length ∧ f.taskTitle.length ≤ 200) ∧ f.assigneeNames.length ≤ 10 ∧
    (∀ name ∈ f.projectName, name.length ≤ 200) ∧ f.requiredSkills.length ≤ 20

instance (f : CaptureFields) : Decidable f.Valid := inferInstanceAs (Decidable (_ ∧ _ ∧ _ ∧ _))

/-- Building the model raises iff a constraint is violated. -/
def CaptureFields.validate (f : CaptureFields) : Except ParseError CaptureTaskIntent :=
  if h : f.Valid then
    .ok ⟨f.taskTitle, f.assigneeNames, f.projectName, f.deadline, f.timeStart, f.estHours, f.requiredSkills,
      h.1, h.2.1, h.2.2.1, h.2.2.2⟩
  else .error .validation

theorem CaptureFields.validate_ok_iff (f : CaptureFields) : (∃ intent, f.validate = .ok intent) ↔ f.Valid := by
  unfold validate
  split
  · rename_i h
    exact iff_of_true ⟨_, rfl⟩ h
  · rename_i h
    exact iff_of_false (fun ⟨_, he⟩ => by cases he) h

end Planner
