import Planner.CaptureRuns
import Planner.Tools

/-! The capture tool, once the fields are there: a call with the title of a task
that the turn has captured adds people to it, and any other call is a capture. -/

namespace Planner

open Program

/-- A call with all key fields; blanks around the title of the project do not count. -/
structure CaptureArgs (args : Args) (intent : CaptureTaskIntent) : Prop where
  assignees : args.strings "assignees" = .ok intent.assigneeNames
  project : args.stripped "project" "" = .ok (strip (intent.projectName.getD ""))
  deadline : args.optDate "deadline" = .ok intent.deadline
  assigned : intent.assigneeNames ≠ []
  housed : strip (intent.projectName.getD "") ≠ ""
  due : intent.deadline ≠ none
  title : args.requiredText "title" = .ok intent.taskTitle
  time : args.optTime "time_start" = .ok intent.timeStart
  hours : args.optInt "est_hours" = .ok intent.estHours
  skills : args.strings "required_skills" = .ok intent.requiredSkills

namespace Store

variable (s : Store)

/-- The rows a merge adds, for people that are not assigned yet. -/
def mergedRows (taskId : UUID) (hours : Int) : List String → (assigned : List String) → List ((UUID × UUID) × Int)
  | [], _ => []
  | name :: rest, assigned =>
    match s.personByName name with
    | none => mergedRows taskId hours rest assigned
    | some person =>
      if person.name ∈ assigned then mergedRows taskId hours rest assigned
      else ((taskId, person.id), hours) :: mergedRows taskId hours rest (assigned ++ [person.name])

/-- The names assigned after a merge. -/
def mergedNames : List String → (assigned : List String) → List String
  | [], assigned => assigned
  | name :: rest, assigned =>
    match s.personByName name with
    | none => mergedNames rest assigned
    | some person =>
      if person.name ∈ assigned then mergedNames rest assigned else mergedNames rest (assigned ++ [person.name])

def merged (taskId : UUID) (hours : Int) (names assigned : List String) : Store :=
  { s with assignments := s.assignments.insertAll (s.mergedRows taskId hours names assigned) }

variable {s}

theorem personByName_congr {t : Store} (h : t.people = s.people) (name : String) :
    t.personByName name = s.personByName name := by
  simp only [personByName, h]

theorem mergedRows_congr {t : Store} (h : t.people = s.people) (taskId : UUID) (hours : Int)
    (names assigned : List String) :
    t.mergedRows taskId hours names assigned = s.mergedRows taskId hours names assigned := by
  induction names generalizing assigned with
  | nil => rfl
  | cons name rest ih => simp only [mergedRows, personByName_congr h, ih]

theorem mergedNames_congr {t : Store} (h : t.people = s.people) (names assigned : List String) :
    t.mergedNames names assigned = s.mergedNames names assigned := by
  induction names generalizing assigned with
  | nil => rfl
  | cons name rest ih => simp only [mergedNames, personByName_congr h, ih]

/-- A name that is found is looked up once more under the name on record. -/
theorem personByName_inj {n n' : String} {p p' : PersonRecord} (h : s.personByName n = some p)
    (h' : s.personByName n' = some p') (hname : p.name = p'.name) : p = p' := by
  obtain ⟨found, -, hget⟩ := Option.bind_eq_some_iff.mp h
  obtain ⟨found', -, hget'⟩ := Option.bind_eq_some_iff.mp h'
  obtain ⟨e, -, heq⟩ := List.mem_map.mp (OrdDict.mem_of_get?_ofList hget)
  obtain ⟨e', -, heq'⟩ := List.mem_map.mp (OrdDict.mem_of_get?_ofList hget')
  obtain ⟨rfl, rfl⟩ := Prod.mk.inj heq
  obtain ⟨rfl, rfl⟩ := Prod.mk.inj heq'
  have hfound : e.2.name = e'.2.name := hname
  rw [hfound] at hget
  exact Option.some.inj (hget.symm.trans hget')

theorem mem_mergedRows {taskId : UUID} {hours : Int} {names assigned : List String} {r : (UUID × UUID) × Int} :
    r ∈ s.mergedRows taskId hours names assigned ↔
      ∃ name ∈ names, ∃ person, s.personByName name = some person ∧ person.name ∉ assigned ∧
        r = ((taskId, person.id), hours) := by
  induction names generalizing assigned with
  | nil => simp [mergedRows]
  | cons name rest ih =>
    simp only [mergedRows, List.exists_mem_cons_iff]
    cases hfound : s.personByName name with
    | none =>
      rw [ih]
      simp
    | some person =>
      by_cases hmem : person.name ∈ assigned
      · simp only [if_pos hmem, ih]
        refine ⟨Or.inr, ?_⟩
        rintro (⟨p, hp, hnot, -⟩ | h)
        · cases hp
          exact absurd hmem hnot
        · exact h
      · simp only [if_neg hmem, List.mem_cons, ih]
        constructor
        · rintro (rfl | ⟨n, hn, p, hp, hnot, rfl⟩)
          · exact Or.inl ⟨person, rfl, hmem, rfl⟩
          · exact Or.inr ⟨n, hn, p, hp, fun h => hnot (List.mem_append_left _ h), rfl⟩
        · rintro (⟨p, hp, -, rfl⟩ | ⟨n, hn, p, hp, hnot, rfl⟩)
          · cases hp
            exact Or.inl rfl
          · by_cases hsame : p.name = person.name
            · exact Or.inl (by rw [personByName_inj hp hfound hsame])
            · refine Or.inr ⟨n, hn, p, hp, ?_, rfl⟩
              rw [List.mem_append, List.mem_singleton, not_or]
              exact ⟨hnot, hsame⟩

theorem mem_mergedNames {names assigned : List String} {x : String} :
    x ∈ s.mergedNames names assigned ↔
      x ∈ assigned ∨ ∃ name ∈ names, ∃ person, s.personByName name = some person ∧ person.name = x := by
  induction names generalizing assigned with
  | nil => simp [mergedNames]
  | cons name rest ih =>
    simp only [mergedNames, List.exists_mem_cons_iff]
    cases hfound : s.personByName name with
    | none =>
      rw [ih]
      simp
    | some person =>
      by_cases hmem : person.name ∈ assigned
      · simp only [if_pos hmem, ih]
        refine ⟨Or.imp_right Or.inr, ?_⟩
        rintro (h | ⟨p, hp, rfl⟩ | h)
        · exact Or.inl h
        · cases hp
          exact Or.inl hmem
        · exact Or.inr h
      · simp only [if_neg hmem, ih, List.mem_append, List.mem_singleton]
        constructor
        · rintro ((h | rfl) | h)
          · exact Or.inl h
          · exact Or.inr (Or.inl ⟨person, rfl, rfl⟩)
          · exact Or.inr (Or.inr h)
        · rintro (h | ⟨p, hp, rfl⟩ | h)
          · exact Or.inl (Or.inl h)
          · cases hp
            exact Or.inl (Or.inr rfl)
          · exact Or.inr h

end Store

section Merge

variable {s : Store}

theorem mergeAssignees_run {taskId : UUID} (ht : taskId ∈ s.tasks.keys) (hours : Int) (names assigned : List String) :
    (mergeAssignees taskId hours names assigned).run s =
      (.ok (s.mergedNames names assigned, .ok ()), s.merged taskId hours names assigned) := by
  induction names generalizing s assigned with
  | nil => rfl
  | cons name rest ih =>
    simp only [mergeAssignees, run_bind _ _ s, run_attempt, Repo.getPersonByName, run_read, Store.merged, Store.mergedRows,
      Store.mergedNames]
    cases hfound : s.personByName name with
    | none => exact ih ht assigned
    | some person =>
      by_cases hmem : person.name ∈ assigned
      · simp only [if_pos hmem]
        exact ih ht assigned
      · have hc : taskId ∈ s.tasks.keys ∧ person.id ∈ s.people.keys := ⟨ht, Store.personByName_mem hfound⟩
        have hrest := @ih (s.putAssignment taskId person.id hours) ht (assigned ++ [person.name])
        have hpeople : (s.putAssignment taskId person.id hours).people = s.people := rfl
        rw [Store.merged, Store.mergedRows_congr hpeople, Store.mergedNames_congr hpeople] at hrest
        simp only [if_neg hmem, run_bind _ _ s, run_attempt, Repo.assignTask, run_call, if_pos hc, OrdDict.insertAll_cons]
        exact hrest

/-- A merge that is not stopped has nobody to assign, or finds its task. -/
theorem mergeAssignees_ok {taskId : UUID} {hours : Int} {names assigned assigned' : List String} {s' : Store}
    (h : (mergeAssignees taskId hours names assigned).run s = (.ok (assigned', .ok ()), s')) :
    s' = s.merged taskId hours names assigned := by
  by_cases ht : taskId ∈ s.tasks.keys
  · rw [mergeAssignees_run ht] at h
    exact (Prod.mk.inj h).2.symm
  · induction names generalizing assigned with
    | nil => exact (Prod.mk.inj h).2.symm
    | cons name rest ih =>
      simp only [mergeAssignees, run_bind _ _ s, run_attempt, Repo.getPersonByName, run_read] at h
      simp only [Store.merged, Store.mergedRows]
      cases hfound : s.personByName name with
      | none =>
        rw [hfound] at h
        exact ih h
      | some person =>
        simp only [hfound] at h
        by_cases hmem : person.name ∈ assigned
        · simp only [if_pos hmem] at h ⊢
          exact ih h
        · have hc : ¬ (taskId ∈ s.tasks.keys ∧ person.id ∈ s.people.keys) := fun hc => ht hc.1
          simp only [if_neg hmem, run_bind _ _ s, run_attempt, Repo.assignTask, run_call, if_neg hc] at h
          cases h

end Merge

section Tool

variable {ctx : ToolContext} {args : Args} {s : Store}

theorem captureTask_strip (U : CharTables) (sink : Option TaskSink) {intent intent' : CaptureTaskIntent}
    (actor : Option PersonRecord) (hproject : intent'.projectName = some (strip (intent.projectName.getD "")))
    (hrest : { intent' with projectName := none, project_length := nofun } =
      { intent with projectName := none, project_length := nofun }) :
    captureTask U sink intent' actor = captureTask U sink intent actor := by
  obtain ⟨title, names, project, deadline, time, hours, skills, _, _, _, _⟩ := intent
  obtain ⟨title', names', project', deadline', time', hours', skills', _, _, _, _⟩ := intent'
  obtain ⟨rfl, rfl, -, rfl, rfl, rfl, rfl⟩ := CaptureTaskIntent.mk.inj hrest
  dsimp only at hproject
  subst hproject
  have hresolve : resolveProject U (some (strip (project.getD ""))) actor = resolveProject U project actor := by
    simp only [resolveProject, Option.getD_some, strip_strip]
  simp only [captureTask, hresolve]

theorem required_of_requiredText {key text : String} (h : args.requiredText key = .ok text) :
    ∃ a, args.required key = .ok a ∧ a.text = some text := by
  rw [Args.requiredText] at h
  cases hrequired : args.required key with
  | ok a =>
    rw [hrequired] at h
    exact ⟨a, rfl, orRaise_ok h⟩
  | error e =>
    rw [hrequired] at h
    cases h

/-- The arguments build an intent that captures the same, the project stripped. -/
theorem captureIntent_of_args {intent : CaptureTaskIntent} (h : CaptureArgs args intent) :
    ∃ intent', captureIntent args intent.assigneeNames (strip (intent.projectName.getD "")) intent.deadline = .ok intent' ∧
      ∀ U sink actor, captureTask U sink intent' actor = captureTask U sink intent actor := by
  have hvalid : CaptureFields.Valid ⟨intent.taskTitle, intent.assigneeNames, some (strip (intent.projectName.getD "")),
      intent.deadline, intent.timeStart, intent.estHours, intent.requiredSkills⟩ := by
    refine ⟨intent.title_length, intent.assignees_length, ?_, intent.skills_length⟩
    rintro name hname
    obtain rfl := Option.some.inj hname
    refine (length_strip_le _).trans ?_
    cases hp : intent.projectName with
    | none => exact Nat.zero_le _
    | some p => exact intent.project_length p hp
  obtain ⟨intent', hintent⟩ := (CaptureFields.validate_ok_iff _).mpr hvalid
  refine ⟨intent', ?_, fun U sink actor => ?_⟩
  · simp only [captureIntent, h.skills, h.title, h.time, h.hours]
    change (CaptureFields.validate _).mapError _ = _
    rw [hintent]
    rfl
  · rw [CaptureFields.validate, dif_pos hvalid] at hintent
    obtain rfl := Except.ok.inj hintent
    exact captureTask_strip _ _ _ rfl rfl

theorem captureTool_run {intent : CaptureTaskIntent} (h : CaptureArgs args intent) (box : ToolBox) :
    (captureTool ctx args box).run s =
      match box.capturesByKey.get? (titleKey ctx.tables intent.taskTitle) with
      | some entry => (mergeAssignees entry.taskId entry.duration intent.assigneeNames entry.assignees >>= fun m =>
          Pure.pure (box.merge (titleKey ctx.tables intent.taskTitle) entry m.1 m.2)).run s
      | none => (captureTask ctx.tables ctx.taskSink intent ctx.actor >>= fun result =>
          Pure.pure (box.capture (titleKey ctx.tables intent.taskTitle) result)).run s := by
  obtain ⟨title, hrequired, htext⟩ := required_of_requiredText h.title
  obtain ⟨intent', hbuilt, hsame⟩ := captureIntent_of_args h
  have hcapture := hsame ctx.tables ctx.taskSink ctx.actor
  have hall : ¬ (intent.assigneeNames = [] ∨ strip (intent.projectName.getD "") = "" ∨ intent.deadline = none) := by
    rintro (he | he | he)
    · exact h.assigned he
    · exact h.housed he
    · exact h.due he
  simp only [captureTool, h.assignees, h.project, h.deadline, hrequired, run_bind _ _ s, run_ofExcept, if_neg hall,
    title.shown_text _ htext]
  cases box.capturesByKey.get? (titleKey ctx.tables intent.taskTitle) with
  | some entry => simp only [run_bind]
  | none => simp only [hbuilt, run_bind, run_ofExcept, hcapture]

end Tool

end Planner
