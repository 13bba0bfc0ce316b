import Planner.ToolCaptures

/-! The captures of one turn. The tool tells tasks apart by their titles only,
the capture itself by project and title. -/

namespace Planner

open Program

/-- A call of the capture tool with all key fields; the others may be anything. -/
structure KeyedCall where
  args : Args
  names : List String
  project : String
  deadline : Date
  assignees_eq : args.strings "assignees" = .ok names
  project_eq : args.stripped "project" "" = .ok project
  deadline_eq : args.optDate "deadline" = .ok (some deadline)
  assigned : names ≠ []
  housed : project ≠ ""

namespace KeyedCall

variable (U : CharTables) (c : KeyedCall)

def title : Option String := (c.args.required "title").toOption.map Arg.shown

/-- The tool's name for the task. -/
def key : Option (List Char) := c.title.map (titleKey U)

/-- The project and the title, but for case and blanks around them. -/
def pair : Option (List Char × List Char) :=
  c.title.map fun title => (U.lower c.project.toList, U.lower (stripChars title.toList))

/-- The capture, if all fields are within their bounds. -/
def intent : Option CaptureTaskIntent := (captureIntent c.args c.names c.project (some c.deadline)).toOption

variable {U c} {title : String}

theorem key_of_title (h : c.title = some title) : c.key U = some (titleKey U title) := by
  rw [key, h, Option.map_some]

theorem pair_of_title (h : c.title = some title) :
    c.pair U = some (U.lower c.project.toList, U.lower (stripChars title.toList)) := by
  rw [pair, h, Option.map_some]

end KeyedCall

/-- The calls of a turn, one after the other. -/
def captureCalls (ctx : ToolContext) : List KeyedCall → ToolBox → UseCase ToolBox
  | [], box => Pure.pure box
  | c :: rest, box => do
    let outcome ← box.execute ctx c.args "capture_task"
    captureCalls ctx rest outcome.box

/-- Titles that agree but for case are folded to one: what `casefold` is for. -/
def FoldsCase (U : CharTables) : Prop :=
  ∀ a b : String, U.lower (stripChars a.toList) = U.lower (stripChars b.toList) → titleKey U a = titleKey U b

namespace Store

variable (U : CharTables) (s : Store)

/-- The project of that title, in lower case. -/
def housing (title : List Char) : Option (UUID × ProjectRow) :=
  s.projects.entries.find? fun e => U.lower e.2.title.toList = title

/-- A task of that title in that project. -/
def Files (pair : List Char × List Char) (t : UUID) (row : TaskRow) : Prop :=
  s.tasks.get? t = some row ∧ U.lower (stripChars row.name.toList) = pair.2 ∧
    ∃ e, s.housing U pair.1 = some e ∧ row.projectId = e.1

/-- A task of that title in that project is not done yet. -/
def Holds (pair : List Char × List Char) : Prop := ∃ t row, s.Files U pair t row ∧ row.status ≠ .done

instance (pair : List Char × List Char) : Decidable (s.Holds U pair) := by
  refine decidable_of_iff (∃ e ∈ (s.housing U pair.1).toList, ∃ t ∈ s.tasks.entries,
    U.lower (stripChars t.2.name.toList) = pair.2 ∧ t.2.projectId = e.1 ∧ t.2.status ≠ .done) ?_
  constructor
  · rintro ⟨e, he, t, ht, hname, hproject, hopen⟩
    exact ⟨t.1, t.2, ⟨OrdDict.get?_eq_some_iff.mpr ht, hname, e, Option.mem_toList.mp he, hproject⟩, hopen⟩
  · rintro ⟨t, row, ⟨ht, hname, e, he, hproject⟩, hopen⟩
    exact ⟨e, Option.mem_toList.mpr he, (t, row), OrdDict.get?_eq_some_iff.mp ht, hname, hproject, hopen⟩

/-- One of the people that the names are found to mean. -/
def Finds (names : List String) (p : UUID) : Prop := ∃ name ∈ names, ∃ person, s.personByName name = some person ∧ person.id = p

end Store

section Calls

variable (U : CharTables) (s : Store)

/-- The names in the calls for a pair. -/
def namedFor (pair : List Char × List Char) (calls : List KeyedCall) : List String :=
  (calls.filter fun c => c.pair U = some pair).flatMap KeyedCall.names

/-- One new task, for the people named in the calls. -/
def FiledExactly (s' : Store) (calls : List KeyedCall) (pair : List Char × List Char) : Prop :=
  ∃ t, (t ∉ s.tasks.keys ∧ ∃ row, s'.Files U pair t row) ∧
    (∀ t', (t' ∉ s.tasks.keys ∧ ∃ row, s'.Files U pair t' row) → t' = t) ∧
    ∀ p, (t, p) ∈ s'.assignments.keys ↔ s.Finds (namedFor U pair calls) p

/-- What the turn should come to. -/
def TurnFiled (s' : Store) (calls : List KeyedCall) : Prop :=
  ∀ pair, (∃ c ∈ calls, c.pair U = some pair) → ¬ s.Holds U pair → FiledExactly U s s' calls pair

/-- A call that makes the task of a key, if none has before. -/
def Opens (key : List Char) (c : KeyedCall) : Prop :=
  c.key U = some key ∧ c.intent.isSome ∧ ∀ pair ∈ c.pair U, ¬ s.Holds U pair

instance (key : List Char) (c : KeyedCall) : Decidable (Opens U s key c) := inferInstanceAs (Decidable (_ ∧ _ ∧ _))

/-- From the call that makes the task of a key on, all calls with the key. -/
def gathered (key : List Char) (calls : List KeyedCall) : List KeyedCall :=
  (calls.dropWhile fun c => ¬ Opens U s key c).filter fun c => c.key U = some key

def namedWith (key : List Char) (calls : List KeyedCall) : List String :=
  (gathered U s key calls).flatMap KeyedCall.names

/-- The calls of each key are the calls for one pair, as far as their tasks are
new and the people they name. -/
def KeysTellApart (calls : List KeyedCall) : Prop :=
  ∀ c ∈ calls, ∀ key ∈ c.key U, ∀ pair ∈ c.pair U, ¬ s.Holds U pair →
    (∃ h ∈ (gathered U s key calls).head?, h.pair U = some pair) ∧
      ∀ p, s.Finds (namedWith U s key calls) p ↔ s.Finds (namedFor U pair calls) p

end Calls

section Gathered

variable {U : CharTables} {s : Store} {key : List Char} {calls : List KeyedCall} {c : KeyedCall}

theorem gathered_append_of_ne (h : c.key U ≠ some key) : gathered U s key (calls ++ [c]) = gathered U s key calls := by
  have hnot : ¬ Opens U s key c := fun ho => h ho.1
  rw [gathered, gathered, List.dropWhile_append]
  split
  · rename_i hnil
    rw [List.isEmpty_iff.mp hnil]
    simp [hnot]
  · simp [List.filter_append, h]

/-- Before a task of the key is there, only a call that makes it counts. -/
theorem gathered_append_of_nil (h : gathered U s key calls = []) :
    gathered U s key (calls ++ [c]) = if Opens U s key c then [c] else [] := by
  have hnil : (calls.dropWhile fun c => ¬ Opens U s key c) = [] := by
    rw [List.eq_nil_iff_forall_not_mem]
    intro d hd
    cases hdrop : calls.dropWhile fun c => ¬ Opens U s key c with
    | nil =>
      rw [hdrop] at hd
      cases hd
    | cons o rest =>
      have ho : Opens U s key o := by
        have hhead := List.head?_dropWhile_not (fun c => decide ¬ Opens U s key c) calls
        rw [hdrop] at hhead
        simpa using hhead
      rw [gathered, hdrop, List.filter_cons_of_pos (by simpa using ho.1)] at h
      cases h
  rw [gathered, List.dropWhile_append, hnil]
  by_cases ho : Opens U s key c
  · simp [ho, ho.1]
  · simp [ho]

theorem gathered_append_of_ne_nil (h : gathered U s key calls ≠ []) (hc : c.key U = some key) :
    gathered U s key (calls ++ [c]) = gathered U s key calls ++ [c] := by
  rw [gathered, gathered, List.dropWhile_append]
  split
  · rename_i hnil
    rw [gathered, List.isEmpty_iff.mp hnil] at h
    exact absurd rfl h
  · rw [List.filter_append, List.filter_cons_of_pos (by simpa using hc), List.filter_nil]

end Gathered

namespace KeyedCall

variable {c : KeyedCall}

theorem required_of_title {title : String} (h : c.title = some title) :
    ∃ a, c.args.required "title" = .ok a ∧ a.shown = title := by
  rw [KeyedCall.title] at h
  cases hrequired : c.args.required "title" with
  | error e =>
    rw [hrequired] at h
    cases h
  | ok a =>
    rw [hrequired] at h
    exact ⟨a, rfl, Option.some.inj h⟩

theorem captureTarget_project (c : KeyedCall) : captureTarget (some c.project) = c.project := by
  have hstrip : ∃ text, c.project = strip text := by
    have hproject := c.project_eq
    rw [Args.stripped] at hproject
    cases hgiven : c.args.given? "project" with
    | none =>
      rw [hgiven] at hproject
      exact ⟨"", (Except.ok.inj hproject).symm⟩
    | some a =>
      rw [hgiven] at hproject
      dsimp only at hproject
      cases htext : a.text with
      | none =>
        rw [htext] at hproject
        cases hproject
      | some text =>
        rw [htext] at hproject
        exact ⟨text, (Except.ok.inj hproject).symm⟩
  obtain ⟨text, htext⟩ := hstrip
  have hsame : strip c.project = c.project := by rw [htext, strip_strip]
  rw [captureTarget, Option.getD_some, hsame, if_neg c.housed]

theorem intent_spec {intent : CaptureTaskIntent} {title : String} (h : c.intent = some intent)
    (htitle : c.title = some title) :
    intent.taskTitle = title ∧ intent.assigneeNames = c.names ∧ intent.projectName = some c.project := by
  obtain ⟨a, hrequired, rfl⟩ := required_of_title htitle
  rw [KeyedCall.intent] at h
  cases hbuilt : captureIntent c.args c.names c.project (some c.deadline) with
  | error e =>
    rw [hbuilt] at h
    cases h
  | ok built =>
    rw [hbuilt] at h
    obtain rfl := Option.some.inj h
    obtain ⟨skills, -, hbuilt⟩ := except_bind_ok hbuilt
    obtain ⟨text, htext, hbuilt⟩ := except_bind_ok hbuilt
    obtain ⟨timeStart, -, hbuilt⟩ := except_bind_ok hbuilt
    obtain ⟨estHours, -, hbuilt⟩ := except_bind_ok hbuilt
    rw [Args.requiredText, hrequired] at htext
    cases ha : a.text with
    | none =>
      rw [Except.bind, ha] at htext
      cases htext
    | some shown =>
      rw [Except.bind, ha] at htext
      obtain rfl := Except.ok.inj htext
      rw [a.shown_text _ ha]
      rw [CaptureFields.validate] at hbuilt
      split at hbuilt
      · obtain rfl := Except.ok.inj hbuilt
        exact ⟨rfl, rfl, rfl⟩
      · cases hbuilt

end KeyedCall

section Tool

variable {ctx : ToolContext} {args : Args} {c : KeyedCall} {box : ToolBox} {s s' : Store}

theorem execute_capture (hadmin : ctx.isAdmin = true) : (box.execute ctx args "capture_task").run s =
    (match (captureTool ctx args box).run s with
      | (.ok outcome, s') => (.ok outcome, s')
      | (.error e, s') => (.ok ⟨box, .error e, none⟩, s')) := by
  have hname : Tool.ofName "capture_task" = some .captureTask := rfl
  simp only [ToolBox.execute, hname, hadmin, Bool.not_true, Bool.false_eq_true, and_false, if_false, run_bind,
    run_attempt, Tool.executor]
  rcases (captureTool ctx args box).run s with ⟨_ | _, s'⟩ <;> rfl

theorem KeyedCall.tool_run (c : KeyedCall) (box : ToolBox) (s : Store) : (captureTool ctx c.args box).run s =
    match c.args.required "title" with
    | .error e => (.error e, s)
    | .ok title =>
      match box.capturesByKey.get? (titleKey ctx.tables title.shown) with
      | some entry => (mergeAssignees entry.taskId entry.duration c.names entry.assignees >>= fun m =>
          Pure.pure (box.merge (titleKey ctx.tables title.shown) entry m.1 m.2)).run s
      | none => (Program.ofExcept (captureIntent c.args c.names c.project (some c.deadline)) >>= fun intent =>
          captureTask ctx.tables ctx.taskSink intent ctx.actor >>= fun result =>
            Pure.pure (box.capture (titleKey ctx.tables title.shown) result)).run s := by
  have hall : ¬ (c.names = [] ∨ c.project = "" ∨ some c.deadline = none) := by
    rintro (he | he | he)
    · exact c.assigned he
    · exact c.housed he
    · cases he
  simp only [captureTool, c.assignees_eq, c.project_eq, c.deadline_eq, run_bind _ _ s, run_ofExcept, if_neg hall]
  cases c.args.required "title" with
  | error e => rfl
  | ok title =>
    dsimp only
    cases box.capturesByKey.get? (titleKey ctx.tables title.shown) with
    | some entry => simp only [run_bind]
    | none => simp only [run_bind, run_ofExcept]

theorem untitled_run (hadmin : ctx.isAdmin = true) (h : c.title = none) :
    ∃ said, (box.execute ctx c.args "capture_task").run s = (.ok ⟨box, said, none⟩, s) := by
  rw [KeyedCall.title] at h
  cases hrequired : c.args.required "title" with
  | error e =>
    rw [execute_capture hadmin, c.tool_run, hrequired]
    exact ⟨_, rfl⟩
  | ok a =>
    rw [hrequired] at h
    cases h

/-- A call with a title merges into the entry of its key, or captures. -/
theorem titled_run (hadmin : ctx.isAdmin = true) {title : String} (h : c.title = some title) :
    (box.execute ctx c.args "capture_task").run s =
      (match (match box.capturesByKey.get? (titleKey ctx.tables title) with
          | some entry => mergeAssignees entry.taskId entry.duration c.names entry.assignees >>= fun m =>
              Pure.pure (box.merge (titleKey ctx.tables title) entry m.1 m.2)
          | none => Program.ofExcept (captureIntent c.args c.names c.project (some c.deadline)) >>= fun intent =>
              captureTask ctx.tables ctx.taskSink intent ctx.actor >>= fun result =>
                Pure.pure (box.capture (titleKey ctx.tables title) result)).run s with
        | (.ok outcome, s') => (.ok outcome, s')
        | (.error e, s') => (.ok ⟨box, .error e, none⟩, s')) := by
  obtain ⟨a, hrequired, rfl⟩ := KeyedCall.required_of_title h
  rw [execute_capture hadmin, c.tool_run, hrequired]
  dsimp only
  cases box.capturesByKey.get? (titleKey ctx.tables a.shown) with
  | some entry => rfl
  | none => rfl

theorem merging_run (hadmin : ctx.isAdmin = true) {title : String} (h : c.title = some title) {entry : CaptureEntry}
    (hentry : box.capturesByKey.get? (titleKey ctx.tables title) = some entry) (ht : entry.taskId ∈ s.tasks.keys) :
    ∃ outcome : ToolOutcome, (box.execute ctx c.args "capture_task").run s =
        (.ok outcome, s.merged entry.taskId entry.duration c.names entry.assignees) ∧
      outcome.box.capturesByKey = box.capturesByKey.insert (titleKey ctx.tables title)
        { entry with assignees := s.mergedNames c.names entry.assignees } := by
  rw [titled_run hadmin h, hentry]
  dsimp only
  rw [run_bind_of_ok (mergeAssignees_run ht _ _ _)]
  exact ⟨_, rfl, rfl⟩

theorem refused_run (hadmin : ctx.isAdmin = true) {title : String} (h : c.title = some title)
    (hentry : box.capturesByKey.get? (titleKey ctx.tables title) = none) (hintent : c.intent = none) :
    ∃ said, (box.execute ctx c.args "capture_task").run s = (.ok ⟨box, said, none⟩, s) := by
  rw [titled_run hadmin h, hentry]
  dsimp only
  rw [KeyedCall.intent] at hintent
  cases hbuilt : captureIntent c.args c.names c.project (some c.deadline) with
  | error e => exact ⟨_, rfl⟩
  | ok intent =>
    rw [hbuilt] at hintent
    cases hintent

theorem capturing_run (hadmin : ctx.isAdmin = true) {title : String} (h : c.title = some title)
    (hentry : box.capturesByKey.get? (titleKey ctx.tables title) = none) {intent : CaptureTaskIntent}
    (hintent : c.intent = some intent) {result : CaptureResult}
    (hrun : (captureTask ctx.tables ctx.taskSink intent ctx.actor).run s = (.ok result, s')) :
    (box.execute ctx c.args "capture_task").run s = (.ok (box.capture (titleKey ctx.tables title) result), s') := by
  rw [titled_run hadmin h, hentry]
  dsimp only
  rw [KeyedCall.intent] at hintent
  cases hbuilt : captureIntent c.args c.names c.project (some c.deadline) with
  | error e =>
    rw [hbuilt] at hintent
    cases hintent
  | ok built =>
    rw [hbuilt] at hintent
    obtain rfl := Option.some.inj hintent
    rw [run_bind_of_ok (run_ofExcept _ _), run_bind_of_ok hrun]
    rfl

end Tool

section Housing

variable {U : CharTables} {s : Store} {title : List Char} {e : UUID × ProjectRow} {name : Option String}
  {actorId : Option UUID}

theorem housing_spec (h : s.housing U title = some e) : e ∈ s.projects.entries ∧ U.lower e.2.title.toList = title :=
  ⟨List.mem_of_find?_eq_some h, by simpa using List.find?_some (show List.find? _ _ = _ from h)⟩

theorem housing_housed (hs : s.TaskKeys) : (s.housed U name actorId).housing U title =
    (s.housing U title).or (if s.housing U (U.lower (captureTarget name).toList) = none ∧
      U.lower (captureTarget name).toList = title then some (s.nextId, s.stubRow (captureTarget name) actorId)
      else none) := by
  have hsame : s.projectByTitle U (captureTarget name) = s.housing U (U.lower (captureTarget name).toList) := rfl
  rw [Store.housed, hsame]
  cases hfound : s.housing U (U.lower (captureTarget name).toList) with
  | some e => simp
  | none =>
    have hentries : ((s.drawn 1).putProject s.nextId (s.stubRow (captureTarget name) actorId)).projects.entries =
        s.projects.entries ++ [(s.nextId, s.stubRow (captureTarget name) actorId)] :=
      OrdDict.entries_insert_of_not_mem hs.project_new _
    change Store.housing U ((s.drawn 1).putProject s.nextId _) title = _
    rw [Store.housing, hentries, List.find?_append, List.find?_singleton]
    simp only [true_and, decide_eq_true_eq]
    rfl

theorem housing_home (hs : s.TaskKeys) :
    ∃ e, (s.housed U name actorId).housing U (U.lower (captureTarget name).toList) = some e ∧
      e.1 = (s.homeOf U name).1 := by
  have hsame : s.projectByTitle U (captureTarget name) = s.housing U (U.lower (captureTarget name).toList) := rfl
  rw [housing_housed hs, Store.homeOf, hsame]
  cases s.housing U (U.lower (captureTarget name).toList) with
  | some e => exact ⟨e, rfl, rfl⟩
  | none => exact ⟨(s.nextId, s.stubRow (captureTarget name) actorId), by simp, rfl⟩

theorem housing_kept (hs : s.TaskKeys) (h : s.housing U title = some e) :
    (s.housed U name actorId).housing U title = some e := by
  rw [housing_housed hs, h, Option.some_or]

theorem housing_made (hs : s.TaskKeys) (h : s.housing U title = none)
    (h' : (s.housed U name actorId).housing U title = some e) : e.1 = s.nextId := by
  rw [housing_housed hs, h, Option.none_or] at h'
  split at h'
  · rw [← Option.some.inj h']
  · cases h'

theorem housed_tasks : (s.housed U name actorId).tasks = s.tasks := by
  unfold Store.housed
  split <;> rfl

theorem housed_assignments : (s.housed U name actorId).assignments = s.assignments := by
  unfold Store.housed
  split <;> rfl

theorem housed_projects {p : UUID} (hp : p ∈ s.projects.keys) : p ∈ (s.housed U name actorId).projects.keys := by
  unfold Store.housed
  split
  · exact hp
  · exact OrdDict.mem_keys_insert.mpr (Or.inr hp)

end Housing

namespace Store

variable {s : Store} {names : List String} {p : UUID}

theorem finds_append {more : List String} : s.Finds (names ++ more) p ↔ s.Finds names p ∨ s.Finds more p := by
  simp only [Finds, List.mem_append, or_and_right, exists_or]

theorem finds_congr {t : Store} (h : t.people = s.people) : t.Finds names p ↔ s.Finds names p := by
  simp only [Finds, personByName_congr h]

theorem mem_assigned {taskId : UUID} {hours : Int} {t : UUID} : (t, p) ∈ (s.assigned taskId hours names).assignments.keys ↔
    t = taskId ∧ s.Finds names p ∨ (t, p) ∈ s.assignments.keys := by
  have hrow : (t, p) ∈ (s.rowsFound taskId hours names).map Prod.fst ↔ t = taskId ∧ s.Finds names p := by
    constructor
    · intro h
      obtain ⟨r, hr, hrow⟩ := List.mem_map.mp h
      obtain ⟨name, hname, hfound⟩ := List.mem_filterMap.mp hr
      obtain ⟨person, hperson, rfl⟩ := Option.map_eq_some_iff.mp hfound
      obtain ⟨rfl, rfl⟩ := Prod.mk.inj hrow
      exact ⟨rfl, name, hname, person, hperson, rfl⟩
    · rintro ⟨rfl, name, hname, person, hperson, rfl⟩
      exact List.mem_map.mpr ⟨_, List.mem_filterMap.mpr ⟨name, hname, by rw [hperson]; rfl⟩, rfl⟩
  rw [assigned, OrdDict.mem_keys_insertAll, hrow]

theorem mem_filed {home : UUID × String} {intent : CaptureTaskIntent} {actorId : Option UUID} {t : UUID} :
    (t, p) ∈ (s.filed home intent actorId).assignments.keys ↔
      t = s.nextId ∧ s.Finds intent.assigneeNames p ∨ (t, p) ∈ s.assignments.keys := by
  have hassigned := @mem_assigned ((s.drawn 1).putTask s.nextId (intent.row home.1)) intent.assigneeNames p s.nextId
    intent.hours t
  rwa [finds_congr (show ((s.drawn 1).putTask s.nextId (intent.row home.1)).people = s.people from rfl)] at hassigned

/-- Whoever is among the assigned has a row already. -/
theorem mem_merged {taskId : UUID} {hours : Int} {assigned : List String} {t : UUID}
    (h : ∀ name ∈ names, ∀ person, s.personByName name = some person → person.name ∈ assigned →
      (taskId, person.id) ∈ s.assignments.keys) :
    (t, p) ∈ (s.merged taskId hours names assigned).assignments.keys ↔
      t = taskId ∧ s.Finds names p ∨ (t, p) ∈ s.assignments.keys := by
  rw [merged, OrdDict.mem_keys_insertAll]
  constructor
  · rintro (hrow | hold)
    · obtain ⟨r, hr, hrow⟩ := List.mem_map.mp hrow
      obtain ⟨name, hname, person, hperson, -, rfl⟩ := mem_mergedRows.mp hr
      obtain ⟨rfl, rfl⟩ := Prod.mk.inj hrow
      exact Or.inl ⟨rfl, name, hname, person, hperson, rfl⟩
    · exact Or.inr hold
  · rintro (⟨rfl, name, hname, person, hperson, rfl⟩ | hold)
    · by_cases hassigned : person.name ∈ assigned
      · exact Or.inr (h name hname person hperson hassigned)
      · exact Or.inl (List.mem_map.mpr ⟨_, mem_mergedRows.mpr ⟨name, hname, person, hperson, hassigned, rfl⟩, rfl⟩)
    · exact Or.inr hold

theorem TaskKeys.merged (hs : s.TaskKeys) {taskId : UUID} (ht : taskId ∈ s.tasks.keys) (hours : Int)
    (names assigned : List String) : (s.merged taskId hours names assigned).TaskKeys where
  project_lt := hs.project_lt
  task_lt := hs.task_lt
  task_project := hs.task_project
  assignment_task k hk := by
    rcases (OrdDict.mem_keys_insertAll _ _).mp hk with hk | hk
    · obtain ⟨r, hr, rfl⟩ := List.mem_map.mp hk
      obtain ⟨name, -, person, -, -, rfl⟩ := mem_mergedRows.mp hr
      exact ht
    · exact hs.assignment_task k hk

end Store

end Planner
